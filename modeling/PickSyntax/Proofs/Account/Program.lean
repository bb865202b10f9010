import PickSyntax.Analysis
import PickSyntax.Proofs.Account.Statement
import PickSyntax.Proofs.Diagnostic.Collector
import PickSyntax.Proofs.Lexing.Tokens

/-!
# No token is lost

The account of a whole program. Its leaves are always a subsequence of the leaves of the
tokens, and when the parser has recorded nothing they are all of them. In that case the
statements and labels at the top also tile the tokens: each stretches from its first token
to its last, and only separators stand between them.
-/
namespace PickSyntax

/-- The token lies inside the range of the item, which is a statement or a label. -/
def Item.covers (t : Token) (i : Item) : Bool :=
  (match i with
    | .comment _ => false
    | _ => true) &&
  decide (i.span.start ≤ t.span.start ∧ t.span.stop ≤ i.span.stop)

/-- Where nothing is reported, nothing was found. -/
theorem Diagnostic.nil_of_report {source : List Char} {limit : Nat} {lexical grammar : List Fault}
    (h : report source limit (order lexical grammar) = []) : lexical = [] ∧ grammar = [] := by
  rw [report_eq] at h
  obtain ⟨htake, hdrop⟩ := List.append_eq_nil_iff.mp h
  have hnil : order lexical grammar = [] := by
    rw [← List.take_append_drop limit (order lexical grammar), List.map_eq_nil_iff.mp htake,
      cut_eq_nil.mp hdrop, List.append_nil]
  obtain ⟨hlexical, hgrammar⟩ := List.append_eq_nil_iff.mp hnil
  refine ⟨hlexical, ?_⟩
  have hlength := congrArg List.length hgrammar
  rwa [List.length_mergeSort, List.length_nil, List.length_eq_zero_iff] at hlength

namespace Grammar

open PickSyntax.Parser

variable {n : Nat}

theorem programStep_accounts (items : List Item) :
    Accounts n (Item.leavesAll items) (programStep statement items) Step.isMore
      (Step.leaves Item.leavesAll Item.leavesAll) := by
  refine commentItems_accounts.andThen fun cs => (acceptAnywhere_accounts rfl).bind fun b => ?_
  cases b with
  | true => exact Accounts.give (by simp [Step.leaves]) rfl
  | false =>
    refine Accounts.look fun s hs hw => ?_
    refine AccountsAt.ite (fun _ => AccountsAt.give (by simp [Step.leaves]) rfl) fun hne => ?_
    refine (item_accountsAt statement_accounts hs hw (by simpa using hne)).bind hw fun i _ _ _ _ => ?_
    exact AccountsAt.give (by simp [Step.leaves]) rfl

theorem programLoop_accounts (items : List Item) :
    Accounts n (Item.leavesAll items) (loop (programStep statement) items) never Item.leavesAll :=
  Accounts.loop (I := fun _ => True) (fun items _ => programStep_accounts items)
    (fun _ _ _ _ _ _ => trivial) trivial

theorem programItems_accounts :
    Accounts n [] (programItems statement) never Item.leavesAll := by
  simpa [programItems] using programLoop_accounts []

/-- A program ends with the tokens. -/
theorem programItems_rest (s : State) :
    Returns (programItems statement) s fun _ s' => s'.rest = [] := by
  refine Returns.loop (I := fun _ _ => True) (Q := fun _ s' => s'.rest = [])
    (fun items s _ => ?_) trivial
  refine Returns.bind fun cs s₁ _ => Returns.bind fun b s₂ _ => ?_
  refine Returns.ite (fun _ => .pure trivial) fun _ => Returns.look ?_
  refine Returns.ite (fun h => .pure (List.isEmpty_iff.mp h)) fun _ => ?_
  exact Returns.bind fun i s₃ _ => .pure trivial

/-- A statement or label that stretches over the tokens, from the first to the last. -/
structure Stretches (us : List Token) (i : Item) : Prop where
  unit : ∀ c, i ≠ .comment c
  start : ∀ t, us.head? = some t → i.span.start = t.span.start
  stop : ∀ t, us.getLast? = some t → i.span.stop = t.span.stop

/-- The items cover the tokens in their order, up to separators; comments cover nothing. -/
inductive Tiles : List Token → List Item → Prop
  | nil : Tiles [] []
  | comments {ts : List Token} {is : List Item} {cs : List Comment} : Tiles ts is →
      Tiles ts (is ++ cs.map Item.comment)
  | separator {ts : List Token} {is : List Item} {t : Token} : Tiles ts is →
      t.kind = .symbol .semicolon → Tiles (ts ++ [t]) is
  | item {ts us : List Token} {is : List Item} {i : Item} : Tiles ts is → us ≠ [] →
      Stretches us i → Tiles (ts ++ us) (is ++ [i])

/-- A statement reaches from its first token to the last one consumed. -/
theorem statement_span {s : State} {t : Token} {us : List Token} (hr : s.rest = t :: us) :
    Returns statement s fun st s' => st.span = s'.since t.span.start := by
  have hstep (nested : Parser Statement) :
      Returns (statementStep nested) s fun st s' => st.span = s'.since t.span.start := by
    refine Returns.look ?_
    rw [hr]
    exact Returns.bind fun form s₁ _ => Returns.look (.pure rfl)
  intro st s' h
  change knotFrom _ () s = _ at h
  rw [knotFrom] at h
  exact hstep _ st s' h

/-- Where nothing was recorded, a statement was followed by what may follow one. -/
theorem endStatement_clean {s s' : State} {left : Nat}
    (h : (endStatement left).run s = (some (), s')) (hf : s'.faults = s.faults) : s' = s := by
  change (if s.mayEndStatement then _ else _ : Parser Unit).run s = _ at h
  split at h
  · cases h
    rfl
  · obtain ⟨_, s₁, hrec, -, hsame, -⟩ :=
      recover_run left { s with faults := s.faults ++ [s.unexpected "end of statement"] }
    change (recover left).run _ = _ at h
    rw [hrec] at h
    cases h
    rw [hsame] at hf
    simp at hf

/-- What an item amounts to where no label is next. -/
theorem run_item {nested : Parser Statement} {s : State} (hl : label? s = none) :
    (item nested).run s = match nested.run { s with begun := false } with
      | (none, s₁) => (recover s.rest.length >>= fun _ => pure none).run s₁
      | (some st, s₁) =>
        (endStatement s.rest.length >>= fun _ => pure (some (.statement st))).run s₁ := by
  unfold item
  rw [run_bind, run_look]
  simp only [hl, run_bind, beginStatement, run_modifyState, run_catchFailure]
  rcases nested.run { s with begun := false } with ⟨_ | st, s₁⟩ <;> rfl

/-- A statement stretches over the tokens that it takes. -/
theorem statement_stretches {offset : Nat} {s s' : State} {st : Statement} {ts : List Token}
    (hrun : statement.run s = (some st, s')) (ht : s.Went ts s') (hts : ts ≠ [])
    (ho : Ordered offset s.rest) : Stretches ts (.statement st) := by
  obtain ⟨t, us, rfl⟩ := List.exists_cons_of_ne_nil hts
  have hspan : st.span = s'.since t.span.start := statement_span ht.rest st s' hrun
  refine ⟨nofun, ?_, ?_⟩
  · intro u hu
    cases hu
    change st.span.start = _
    rw [hspan, State.since_start]
  · intro u hu
    change st.span.stop = _
    have hprev : s'.previous = some u := by rw [ht.previous, hu]; rfl
    rw [ht.rest] at ho
    rw [hspan, State.since_stop hprev (ho.append_left.start_le_stop hu)]

theorem item_stretches {offset : Nat} {s s' : State} {o : Option Item} (hw : s.WellSpelled)
    (ho : Ordered offset s.rest)
    (h : (item statement).run s = (some o, s')) (hf : s'.faults = s.faults) :
    ∃ i us, o = some i ∧ s.rest = us ++ s'.rest ∧ us ≠ [] ∧ Stretches us i := by
  cases hl : label? s with
  | some l =>
    obtain ⟨t, us, hr, hk, rfl⟩ := rest_of_label? hl
    unfold item at h
    rw [run_bind, run_look] at h
    simp only [hl, run_bind_some (run_skip_one hr), run_pure] at h
    cases h
    exact ⟨_, [t], rfl, hr, by simp, ⟨by simp, by simp [Item.span], by simp [Item.span]⟩⟩
  | none =>
    obtain ⟨ts, ht, hacc⟩ := statement_accounts (n := s.rest.length + 1)
      { s with begun := false } (Nat.lt_succ_self _) hw
    rw [run_item hl] at h
    rcases hst : statement.run { s with begun := false } with ⟨_ | st, s₁⟩ <;>
      simp only [hst] at h ht hacc
    · -- A failed statement has recorded a fault, and recovery does not take it back.
      obtain ⟨_, s₂, hrec, -, hsame, -⟩ := recover_run s.rest.length s₁
      rw [run_bind_some hrec] at h
      cases h
      exact absurd (hsame.symm.trans hf) hacc
    · rcases hend : (endStatement s.rest.length).run s₁ with ⟨_ | _, s₂⟩
      · rw [run_bind_none hend] at h
        cases h
      rw [run_bind_some hend] at h
      cases h
      obtain ⟨us', hu, -⟩ := endStatement_accounts (n := s₁.rest.length + 1) s.rest.length s₁
        (Nat.lt_succ_self _) (ht.wellSpelled hw)
      rw [hend] at hu
      have hsame := endStatement_clean hend (ht.faults_eq hu hf).2
      subst hsame
      have hts := hacc.1 trivial
      exact ⟨_, ts, rfl, ht.rest, hts, statement_stretches hst ht hts ho⟩

/-- One round that records nothing adds tiles for the tokens it takes. -/
theorem programStep_tiles {offset : Nat} {s : State} {ts : List Token} {items : List Item}
    (hw : s.WellSpelled) (ho : Ordered offset s.rest) (hi : Tiles ts items) :
    Returns (programStep statement items) s fun r s' => s'.faults = s.faults →
      ∃ us, s.rest = us ++ s'.rest ∧ r.Says (Tiles (ts ++ us)) (Tiles (ts ++ us)) := by
  refine Returns.bind fun cs s₁ h₁ => ?_
  cases h₁
  have hi' : Tiles ts (items ++ (s.comments.takeWhile s.isPending).map Item.comment) := hi.comments
  refine Returns.bind fun b s₂ h₂ => ?_
  have h₂ := acceptAnywhere_returns _ _ b s₂ h₂
  cases b with
  | true =>
    obtain ⟨t, us, hr, hk, rfl⟩ := h₂
    exact .pure fun _ => ⟨[t], hr, hi'.separator hk⟩
  | false =>
    subst h₂
    refine Returns.look (Returns.ite (fun _ => .pure fun _ => ⟨[], rfl, ?_⟩) fun _ => ?_)
    · simpa [Step.Says] using hi'
    · refine Returns.bind fun o s₃ h₃ => .pure fun hf => ?_
      obtain ⟨i, us, rfl, hr, hus, hstretch⟩ :=
        item_stretches (s := { s with comments := s.comments.dropWhile s.isPending }) hw ho h₃ hf
      exact ⟨us, hr, hi'.item hus hstretch⟩

/-- A program in which nothing was recorded is tiled by its items. -/
theorem programItems_tiles {offset : Nat} {s : State} {ts : List Token} {items : List Item}
    (hw : s.WellSpelled) (ho : Ordered offset s.rest) (hi : Tiles ts items) :
    Returns (loop (programStep statement) items) s fun is s' => s'.faults = s.faults →
      ∃ us, s.rest = us ++ s'.rest ∧ Tiles (ts ++ us) is := by
  intro is s' h hf
  induction hk : s.rest.length using Nat.strongRecOn generalizing s ts items with
  | ind k ih =>
    have hstep := programStep_tiles hw ho hi
    obtain ⟨vs, hv, hacc⟩ := programStep_accounts (n := s.rest.length + 1) items s
      (Nat.lt_succ_self _) hw
    rw [loop_run] at h
    rcases hr : (programStep statement items).run s with ⟨_ | is' | is', s₁⟩ <;>
      rw [hr] at h hv hacc
    · cases h
    · have hlt := hv.length_lt (hacc.1 rfl)
      simp only [hlt, if_true] at h
      have hw₁ := hv.wellSpelled hw
      obtain ⟨ws, hu, -⟩ := programLoop_accounts (n := s₁.rest.length + 1) is' s₁
        (Nat.lt_succ_self _) hw₁
      rw [h] at hu
      -- Nothing was recorded in this round, nor in those after it.
      obtain ⟨hf₁, hf₂⟩ := hv.faults_eq hu hf
      obtain ⟨us, hrest, htiles⟩ := hstep _ s₁ hr hf₁
      have ho₁ : Ordered offset s₁.rest := (hrest ▸ ho).append_right
      obtain ⟨us', hrest', htiles'⟩ := ih _ (hk ▸ hlt) hw₁ ho₁ htiles h hf₂ rfl
      refine ⟨us ++ us', by rw [hrest, hrest', List.append_assoc], ?_⟩
      rwa [← List.append_assoc]
    · cases h
      exact hstep _ _ hr hf

/-- A statement or label ends no later than some token that it stretches over. -/
theorem Tiles.exists_stop_le {ts : List Token} {is : List Item} {i : Item} (h : Tiles ts is)
    (hi : i ∈ is) (hu : ∀ c, i ≠ .comment c) : ∃ t ∈ ts, i.span.stop ≤ t.span.stop := by
  induction h with
  | nil => cases hi
  | comments _ ih =>
    obtain hi | hi := List.mem_append.mp hi
    · exact ih hi
    · obtain ⟨c, -, rfl⟩ := List.mem_map.mp hi
      exact absurd rfl (hu c)
  | separator _ _ ih =>
    obtain ⟨t, ht, hle⟩ := ih hi
    exact ⟨t, List.mem_append_left _ ht, hle⟩
  | @item _ us _ _ _ hne hs ih =>
    obtain hi | hi := List.mem_append.mp hi
    · obtain ⟨t, ht, hle⟩ := ih hi
      exact ⟨t, List.mem_append_left _ ht, hle⟩
    · obtain rfl := List.mem_singleton.mp hi
      have hlast := List.getLast?_eq_some_getLast hne
      exact ⟨_, List.mem_append_right _ (List.getLast_mem hne), Nat.le_of_eq (hs.stop _ hlast)⟩

theorem Item.covers_iff {t : Token} {i : Item} : i.covers t = true ↔
    (∀ c, i ≠ .comment c) ∧ i.span.start ≤ t.span.start ∧ t.span.stop ≤ i.span.stop := by
  cases i <;> simp [Item.covers]

/-- Tiles do not overlap, so each token has exactly one statement or label around it. -/
theorem Tiles.countP_covers {offset : Nat} {ts : List Token} {is : List Item} {t : Token}
    (h : Tiles ts is) (ho : Ordered offset ts) (ht : t ∈ ts) (hk : t.kind ≠ .symbol .semicolon) :
    is.countP (Item.covers t) = 1 := by
  induction h with
  | nil => cases ht
  | @comments _ _ cs _ ih =>
    have hnone : ∀ i ∈ cs.map Item.comment, ¬Item.covers t i = true := by
      intro i hi
      obtain ⟨c, -, rfl⟩ := List.mem_map.mp hi
      simp [Item.covers]
    rw [List.countP_append, ih ho ht, List.countP_eq_zero.mpr hnone]
  | separator _ hsep ih =>
    obtain ht | ht := List.mem_append.mp ht
    · exact ih ho.append_left ht
    · rw [List.mem_singleton.mp ht] at hk
      exact absurd hsep hk
  | @item ts us is i htiles hne hs ih =>
    have hb := ho.bound t ht
    rw [List.countP_append, List.countP_singleton]
    obtain ht | ht := List.mem_append.mp ht
    · have hfirst := List.head?_eq_some_head hne
      have hafter := ho.stop_le_start ht (List.head_mem hne)
      have hstart := hs.start _ hfirst
      have hnot : ¬Item.covers t i = true := by
        rw [Item.covers_iff]
        omega
      rw [ih ho.append_left ht, if_neg hnot]
    · have hin : Item.covers t i = true := by
        refine Item.covers_iff.mpr ⟨hs.unit, ?_, ?_⟩
        · rw [hs.start _ (List.head?_eq_some_head hne)]
          exact ho.append_right.head_start_le (List.head?_eq_some_head hne) ht
        · rw [hs.stop _ (List.getLast?_eq_some_getLast hne)]
          exact ho.append_right.stop_le_getLast (List.getLast?_eq_some_getLast hne) ht
      have hout : ∀ j ∈ is, ¬Item.covers t j = true := by
        intro j hj hcov
        obtain ⟨hunit, -, hstop⟩ := Item.covers_iff.mp hcov
        obtain ⟨u, hu, hle⟩ := htiles.exists_stop_le hj hunit
        have := ho.stop_le_start hu ht
        omega
      rw [List.countP_eq_zero.mpr hout, if_pos hin]

theorem readProgram_of_some {s s' : State} {is : List Item}
    (h : (programItems statement).run s = (some is, s')) : s.readProgram = (⟨is⟩, s') := by
  simp only [State.readProgram, program, run_bind_some h, run_pure]

theorem readProgram_of_none {s s' : State} (h : (programItems statement).run s = (none, s')) :
    s.readProgram = (⟨[]⟩, s') := by
  simp only [State.readProgram, program, run_bind_none h]

/-- The account of a program. Where nothing was recorded, the tokens do not break off. -/
theorem readProgram_accounts {s : State} (hw : s.WellSpelled) :
    (Item.leavesAll s.readProgram.1.items).Sublist (leavesOf s.rest) ∧
      (s.readProgram.2.faults = s.faults →
        Item.leavesAll s.readProgram.1.items = leavesOf s.rest ∧ Settled s.rest) := by
  obtain ⟨ts, ht, hacc⟩ := programItems_accounts (n := s.rest.length + 1) s
    (Nat.lt_succ_self _) hw
  rcases hr : (programItems statement).run s with ⟨_ | is, s'⟩ <;> rw [hr] at ht hacc
  · rw [readProgram_of_none hr]
    exact ⟨by simp, fun hf => absurd hf hacc⟩
  · have hend : s.rest = ts := by
      rw [ht.rest, programItems_rest s is s' hr, List.append_nil]
    rw [readProgram_of_some hr, hend]
    exact hacc.2

theorem readProgram_tiles {offset : Nat} {s : State} (hw : s.WellSpelled)
    (ho : Ordered offset s.rest) (hf : s.readProgram.2.faults = s.faults) :
    Tiles s.rest s.readProgram.1.items := by
  obtain ⟨_, _, hacc⟩ := programItems_accounts (n := s.rest.length + 1) s
    (Nat.lt_succ_self _) hw
  rcases hr : (programItems statement).run s with ⟨_ | is, s'⟩
  · rw [readProgram_of_none hr] at hf
    rw [hr] at hacc
    exact absurd hf hacc
  · rw [readProgram_of_some hr] at hf ⊢
    obtain ⟨us, hrest, htiles⟩ := programItems_tiles hw ho .nil is s' hr hf
    rw [hrest, programItems_rest s is s' hr]
    simpa using htiles

end Grammar

open PickSyntax.Grammar PickSyntax.Parser

/-- No token is lost, duplicated or reordered. The leaves of a tree are a subsequence of the
names, numbers, strings and system variables of the source; if the parser has recorded
nothing they are all of them, and every token but the separators lies inside exactly one
statement or label at the top of the tree. -/
theorem parse_keeps_tokens (options : Options) (source : String) :
    let tokens := (lex source).tokens
    let items := (parseWith options source).program.items
    let found := (State.ofLexing (lex source) options.keepComments).readProgram.2.faults
    (Item.leavesAll items).Sublist (leavesOf tokens) ∧
      (found = [] → Item.leavesAll items = leavesOf tokens ∧
        ∀ t ∈ tokens, t.kind ≠ .symbol .semicolon → items.countP (Item.covers t) = 1) := by
  intro tokens items found
  let s := State.ofLexing (lex source) options.keepComments
  have hw : s.WellSpelled := lex_wellSpelled source
  have ho : Ordered 0 s.rest := lex_ordered source
  obtain ⟨hsub, hall⟩ := readProgram_accounts hw
  refine ⟨hsub, fun hf => ⟨(hall hf).1, fun t ht hk => ?_⟩⟩
  exact (readProgram_tiles hw ho hf).countP_covers ho ht hk

/-- A label, a reference that closes, a system variable, and a `<` that only compares. -/
theorem parse_keeps_tokens_compared :
    (State.ofLexing (lex "10 X<2> = @USER; PRINT A < 'B'") true).readProgram.2.faults = [] ∧
      Item.leavesAll (parse "10 X<2> = @USER; PRINT A < 'B'").program.items
        = leavesOf (lex "10 X<2> = @USER; PRINT A < 'B'").tokens ∧
      ∀ t ∈ (lex "10 X<2> = @USER; PRINT A < 'B'").tokens, t.kind ≠ .symbol .semicolon →
        (parse "10 X<2> = @USER; PRINT A < 'B'").program.items.countP (Item.covers t) = 1 := by
  have hf : (State.ofLexing (lex "10 X<2> = @USER; PRINT A < 'B'") true).readProgram.2.faults
      = [] := by decide +kernel
  exact ⟨hf, (parse_keeps_tokens {} _).2 hf⟩

end PickSyntax
