import PickSyntax.Proofs.Account.Program
import PickSyntax.Proofs.Joined.Statement
import PickSyntax.Proofs.Parser.Progress

/-!
# Programs across an end

A program is read item by item, and between two items nothing is remembered but the comments
that are left, the faults, and what encloses the whole. So two readings that correspond can
be followed to the end of the first list (`Abreast`), where the second one goes on by itself.
-/
namespace PickSyntax.Grammar

open PickSyntax.Parser PickSyntax.Parser.Seam

variable {m : Seam} {known : Bool} {s S : State}

section Rounds
variable (st : Parser Statement) (items : List Item) {t : Token} {ts : List Token}

/-- What was consumed before does not matter to an item. -/
theorem item_begun (hr : s.rest ≠ []) :
    (item st).run { s with begun := false } = (item st).run s := by
  have hlabel : label? { s with begun := false } = label? s := rfl
  cases hl : label? s with
  | some l =>
    obtain ⟨t, ts, hr⟩ := List.exists_cons_of_ne_nil hr
    have hr' : ({ s with begun := false } : State).rest = t :: ts := hr
    simp only [item, run_bind, run_look, hlabel, hl, run_skip_one hr, run_skip_one hr']
    rfl
  | none => rw [run_item hl, run_item (hlabel.trans hl)]

theorem programStep_begun (hr : s.rest ≠ []) :
    (programStep st items).run { s with begun := false } = (programStep st items).run s := by
  have hp : placed { s with begun := false } = { placed s with begun := false } := rfl
  obtain ⟨t, ts, hr⟩ := List.exists_cons_of_ne_nil hr
  have hr' : ({ s with begun := false } : State).rest = t :: ts := hr
  by_cases hk : t.kind = .symbol .semicolon
  · rw [programStep_separator st items hr hk, programStep_separator st items hr' hk]
    rfl
  · have hne : (placed s).rest ≠ [] := by simp [placed, hr]
    rw [programStep_item st items hr hk, programStep_item st items hr' hk, run_bind, run_bind, hp,
      item_begun st hne]
    rfl

end Rounds

end PickSyntax.Grammar

namespace PickSyntax.Parser.Seam

open PickSyntax.Grammar

variable {m : Seam} {known : Bool} {s S : State}

/-- States between two items that correspond. The last token consumed is forgotten there. -/
structure Abreast (m : Seam) (s S : State) : Prop where
  rest : m.Aligned false s.rest S.rest
  blocks : s.blocks = S.blocks
  angled : s.angled = S.angled
  comments : ∃ cs, S.comments = cs ++ m.after ∧ m.Same s.comments cs ∧ m.Before cs
  faults : m.Same s.faults S.faults
  suffix : S.rest <:+ m.whole

theorem Lock.abreast (h : m.Lock true s S) : m.Abreast s S :=
  ⟨h.rest.weaken, h.blocks, h.angled, h.comments, h.faults, h.suffix⟩

/-- An item may begin with tokens whose flags differ. -/
theorem Abreast.lock (h : m.Abreast s S) (hr : s.rest ≠ []) :
    m.Lock false { s with begun := false } { S with begun := false } :=
  ⟨h.rest, nofun, fun _ => ⟨rfl, hr⟩, rfl, h.blocks, h.angled, h.comments, h.faults, h.suffix⟩

end PickSyntax.Parser.Seam

namespace PickSyntax.Grammar

open PickSyntax.Parser PickSyntax.Parser.Seam

variable {m : Seam} {known : Bool} {s S : State} {vs ws : List Item}

/-- The second run has gone on with items of its own before. -/
def Continues (m : Seam) (pre : List Item) :
    Step (List Item) (List Item) → Step (List Item) (List Item) → Prop
  | .more vs, .more us => ∃ ws, us = pre ++ ws ∧ m.Same vs ws
  | _, _ => False

/-- One round, where the first list has not ended. -/
theorem programStep_outcome (pre : List Item) (hl : m.Lock known s S) (hr : s.rest ≠ []) (hv : m.Same vs ws) :
    m.Outcome false known (Continues m pre) (fun _ => False) s
      ((programStep statement vs).run s) ((programStep statement (pre ++ ws)).run S) := by
  obtain ⟨is, is', s₁, S₁, hrun, hrun', his, hrest, hfaults, hl₁⟩ := hl.commentItems fun _ => hr
  have hr₁ : s₁.rest ≠ [] := hrest ▸ hr
  have hitems := hv.append his
  unfold programStep
  rw [run_bind_some hrun, run_bind_some hrun']
  refine Outcome.over ?_ (Nat.le_of_eq (congrArg List.length hfaults.symm)) hrest
  rw [List.append_assoc]
  refine .ifAnywhere hl₁ (fun _ => hr₁) (fun _ _ _ hl => .pure hl ⟨_, rfl, hitems⟩) fun _ => .look ?_
  refine .ite (hl₁.isEmpty fun _ => hr₁) (fun h => absurd (List.isEmpty_iff.mp h) hr₁) fun _ => ?_
  refine (item_outcome hl₁ hr₁ (statement_outcome hl₁.beginStatement)).bind
    (fun o o' s₂ S₂ _ ho hl₂ => .pure hl₂ ⟨_, List.append_assoc .., hitems.append ?_⟩) fun _ _ h => h.elim
  obtain ⟨rfl, rfl⟩ | ⟨i, i', rfl, rfl, hi⟩ := ho.option
  · exact .nil
  · exact .cons hi .nil

/-- A whole reading of the first list is followed by the second one, which then stands where
the first list has ended, with the comments before that place still to come. -/
theorem programLoop_follow (pre : List Item) {is : List Item} {s' : State} (ha : m.Abreast s S)
    (hv : m.Same vs ws) (hrun : (loop (programStep statement) vs).run s = (some is, s'))
    (hclean : m.cut → s'.faults.length ≤ s.faults.length) :
    ∃ ws' cs S', (loop (programStep statement) (pre ++ ws)).run S =
        (loop (programStep statement) (pre ++ ws')).run S' ∧
      S'.rest = m.tail ∧ S'.comments = cs ++ m.after ∧ m.Before cs ∧
      m.Same is (ws' ++ cs.map Item.comment) ∧ S'.blocks = s'.blocks ∧ S'.angled = s'.angled ∧
      m.Same s'.faults S'.faults := by
  induction hn : s.rest.length using Nat.strongRecOn generalizing s S vs ws with
  | ind n ih =>
    by_cases hr : s.rest = []
    · obtain ⟨cs, hcs, hsame, hbefore⟩ := ha.comments
      have hS : S.rest = m.tail := by
        have h := ha.rest
        rw [hr] at h
        generalize S.rest = us at h
        cases h
        rfl
      rw [loop_run, programStep_nil statement vs hr] at hrun
      cases hrun
      refine ⟨ws, cs, S, rfl, hS, hcs, hbefore, ?_, ha.blocks.symm, ha.angled.symm, ha.faults⟩
      rw [withComments_nil hr]
      exact hv.append (.commentItems hsame)
    · have hl := ha.lock hr
      have hR : S.rest ≠ [] := by
        obtain ⟨t, ts, hr⟩ := List.exists_cons_of_ne_nil hr
        obtain ⟨u, us, hR, -⟩ := hl.front hr
        exact hR ▸ List.cons_ne_nil u us
      have hlen : S.rest.length = s.rest.length + m.tail.length := hl.length
      have hout := programStep_outcome pre hl hr hv
      rw [programStep_begun statement vs hr, programStep_begun statement (pre ++ ws) hR] at hout
      have hgo := hrun
      rw [loop_eq_goRound] at hgo
      rw [loop_run] at hrun ⊢
      generalize hr₁ : (programStep statement vs).run s = r,
        (programStep statement (pre ++ ws)).run S = r' at hout hrun ⊢
      cases hout with
      | @yield v w s₁ S₁ hvw hl₁ =>
        match v, w, hvw with
        | .more vs₁, .more _, ⟨ws₁, rfl, hsame⟩ =>
          simp only at hrun ⊢
          split at hrun
          next hlt =>
            have hlt' : S₁.rest.length < S.rest.length := by
              have := hl₁.length
              omega
            have hle : s.faults.length ≤ s₁.faults.length := by
              have := Onward.faults_le (p := programStep statement vs) s
              rwa [hr₁] at this
            simp only [hlt', if_true]
            exact ih _ (hn ▸ hlt) hl₁.abreast hsame hrun
              (fun hc => Nat.le_trans (hclean hc) hle) rfl
          next => cases hrun
      | fail => cases hrun
      | cutoff hc hlt _ =>
        have hlt' := Onward.lt_bind (f := goRound (programStep statement) s.rest.length)
          (show s.faults.length < ((programStep statement vs).run s).2.faults.length by rwa [hr₁])
        rw [hgo] at hlt'
        exact absurd (hclean hc) (Nat.not_le.mpr hlt')
      | early _ _ he => exact he.elim

section Crossing
variable (st : Parser Statement) (items : List Item)

/-- Comments that stand before the next token are items already. -/
theorem programLoop_place {cs ds : List Comment} (hc : s.comments = cs ++ ds)
    (hp : ∀ c ∈ cs, s.isPending c = true) : (loop (programStep st) items).run s =
      (loop (programStep st) (items ++ cs.map Item.comment)).run { s with comments := ds } := by
  have hpending : ({ s with comments := ds } : State).isPending = s.isPending := rfl
  have hitems : withComments items s =
      withComments (items ++ cs.map Item.comment) { s with comments := ds } := by
    simp only [withComments, hpending, hc, List.takeWhile_append_of_pos hp, List.map_append,
      List.append_assoc]
  have hplaced : placed s = placed { s with comments := ds } := by
    simp only [placed, hpending, hc, List.dropWhile_append_of_pos hp]
  rw [loop_run, loop_run, programStep_run, programStep_run, hitems, hplaced]

/-- A separator adds nothing. -/
theorem programLoop_separator {t : Token} {ts : List Token} (hr : s.rest = t :: ts)
    (hk : t.kind = .symbol .semicolon) (hp : ∀ c ∈ s.comments, s.isPending c = false) :
    (loop (programStep st) items).run s = (loop (programStep st) items).run (s.past t ts) := by
  obtain ⟨htake, hdrop⟩ := takeWhile_append_of_stop [] hp
  simp only [List.nil_append, List.takeWhile_nil, List.dropWhile_nil] at htake hdrop
  have hitems : withComments items s = items := by simp [withComments, htake]
  have hplaced : placed s = s := by simp [placed, hdrop]
  have hlt : (s.past t ts).rest.length < s.rest.length := by simp [State.past, hr]
  rw [loop_run, programStep_separator st items hr hk, hitems, hplaced]
  simp only [hlt, if_true]

end Crossing

end PickSyntax.Grammar

namespace PickSyntax.Parser

open PickSyntax.Grammar

/-- Behind the tokens stands a tail with comments of its own. -/
def Seam.behind (ts tail : List Token) (after : List Comment)
    (hb : ∀ t, tail.head? = some t → Boundary t) (ho : Ordered 0 (ts ++ tail))
    (hs : ∀ t ∈ (ts ++ tail).tail, t.lineStart = true → t.spaced = true)
    (hu : ¬SpansTail (ts ++ tail) tail.length) : Seam where
  left := id
  right := id
  left_le := Iff.rfl
  right_le := Iff.rfl
  cut := True
  whole := ts ++ tail
  tail := tail
  after := after
  boundary := hb
  uncut h := absurd trivial h
  ordered _ := ho
  spaced _ := hs
  unspanned := hu

/-- The same tokens, `n` bytes further on. -/
def Seam.shift (n : Nat) (whole : List Token) : Seam where
  left := (· + n)
  right := id
  left_le := by omega
  right_le := Iff.rfl
  cut := False
  whole := whole
  tail := []
  after := []
  boundary := nofun
  uncut _ := ⟨rfl, rfl⟩
  ordered := False.elim
  spaced := False.elim
  unspanned := by
    rintro ⟨_, _, _, _, _, _, _, _, _, _, -, -, h, -⟩
    cases h

/-- The tokens of the second list are those of the first one, `n` bytes further on; only what
stands before the first of them may differ. -/
def Shifted (n : Nat) (ts us : List Token) : Prop := (Seam.shift n us).Aligned false ts us

/-- A list goes on with its tail. -/
theorem Seam.aligned_append {m : Seam} {ts : List Token} (hm : m.left = m.right)
    (h : ∀ t ∈ ts, ∀ c ∈ m.after, t.span.start ≤ c.span.start) : m.Aligned true ts (ts ++ m.tail) := by
  induction ts with
  | nil => exact .nil
  | cons t ts ih =>
    have hlike : m.Like t t := ⟨rfl, rfl, by rw [Same, hm]⟩
    exact .cons hlike (fun _ => ⟨rfl, rfl⟩) (h t (List.mem_cons_self ..))
      (ih fun u hu => h u (List.mem_cons_of_mem _ hu))

end PickSyntax.Parser

namespace PickSyntax.Grammar

open PickSyntax.Parser PickSyntax.Parser.Seam

/-- Further on, the same items are read, behind those that are there already. -/
theorem programLoop_shifted {n : Nat} {s s' S : State} {vs : List Item} (is : List Item)
    (hrest : Shifted n s.rest S.rest) (hblocks : s.blocks = S.blocks)
    (hangled : s.angled = S.angled) (hcomments : S.comments = relocate (· + n) s.comments)
    (hfaults : S.faults = relocate (· + n) s.faults)
    (hrun : (loop (programStep statement) []).run s = (some vs, s')) :
    ∃ S', (loop (programStep statement) is).run S = (some (is ++ relocate (· + n) vs), S') ∧
      S'.faults = relocate (· + n) s'.faults := by
  let m := Seam.shift n S.rest
  have hplaced : ∃ cs, S.comments = cs ++ m.after ∧ m.Same s.comments cs ∧ m.Before cs :=
    ⟨S.comments, (List.append_nil _).symm, by
      rw [hcomments]
      exact (relocate_id_comments _).symm, fun c _ t ht => by cases ht⟩
  have hsame : m.Same s.faults S.faults := by
    rw [hfaults]
    exact (relocate_id_faults _).symm
  have habreast : m.Abreast s S := ⟨hrest, hblocks, hangled, hplaced, hsame, List.suffix_rfl⟩
  obtain ⟨ws, cs, S', hgo, htail, hcs, -, hitems, -, -, hmore⟩ :=
    programLoop_follow is habreast .nil hrun fun hcut => hcut.elim
  have hitems : relocate (· + n) vs = relocate id (ws ++ cs.map Item.comment) := hitems
  have hmore : relocate (· + n) s'.faults = relocate id S'.faults := hmore
  rw [relocate_id_items] at hitems
  rw [relocate_id_faults] at hmore
  refine ⟨placed S', ?_, hmore.symm⟩
  rw [← List.append_nil is, hgo, loop_run, programStep_nil statement _ htail,
    withComments_nil htail, hcs, hitems]
  simp [m, Seam.shift]

end PickSyntax.Grammar

namespace PickSyntax

open PickSyntax.Parser PickSyntax.Grammar

/-- `j` holds what `a` and `b` hold, one behind the other: the tokens `sep` stand between the
two, and what `b` holds stands `n` bytes further on. -/
structure Lexing.Joint (n : Nat) (a b : Lexing) (sep us : List Token) (j : Lexing) : Prop where
  tokens : j.tokens = a.tokens ++ (sep ++ us)
  shifted : Shifted n b.tokens us
  comments : j.comments = a.comments ++ relocate (· + n) b.comments
  faults : j.faults = a.faults ++ relocate (· + n) b.faults
  separators : sep = [] ∨ ∃ y, sep = [y] ∧ y.kind = .symbol .semicolon
  boundary : ∀ t, (sep ++ us).head? = some t → Boundary t
  start_le : ∀ t ∈ a.tokens ++ sep, t.span.start ≤ n
  before : ∀ c ∈ a.comments, ∀ t, (sep ++ us).head? = some t → c.span.start < t.span.start

namespace Lexing.Joint
variable {n : Nat} {a b j : Lexing} {sep us : List Token} {is : List Item}

/-- The comments that are kept, as the options say. -/
theorem kept (h : Joint n a b sep us j) (keep : Bool) :
    (if keep then j.comments else []) = (if keep then a.comments else []) ++
      relocate (· + n) (if keep then b.comments else []) := by
  cases keep with
  | true => simpa using h.comments
  | false => rfl

theorem mem_kept {keep : Bool} {c : Comment} {cs : List Comment}
    (h : c ∈ if keep then cs else []) : c ∈ cs := by
  cases keep with
  | true => exact h
  | false => cases h

theorem le_start {cs : List Comment} {c : Comment} (h : c ∈ relocate (· + n) cs) :
    n ≤ c.span.start := by
  obtain ⟨d, -, rfl⟩ := List.mem_map.mp h
  exact Nat.le_add_left ..

/-- The first program has been read, and nothing is left of it. -/
theorem read_first (h : Joint n a b sep us j) (ho : Ordered 0 j.tokens)
    (hs : ∀ t ∈ j.tokens.tail, t.lineStart = true → t.spaced = true)
    (hu : ¬SpansTail j.tokens (sep ++ us).length) {keep : Bool} {s' : State}
    (ha : (programItems statement).run (.ofLexing a keep) = (some is, s')) (hf : s'.faults = [])
    (hb : s'.blocks = []) (hg : s'.angled = false) :
    ∃ S, (programItems statement).run (.ofLexing j keep) = (loop (programStep statement) is).run S ∧
      S.rest = us ∧ S.comments = relocate (· + n) (if keep then b.comments else []) ∧
      S.blocks = [] ∧ S.angled = false ∧ S.faults = [] := by
  have hcomments := h.kept keep
  generalize hds : relocate (· + n) (if keep then b.comments else []) = ds at hcomments ⊢
  have hle : ∀ c ∈ ds, n ≤ c.span.start := fun c hc => le_start (hds ▸ hc)
  let m := Seam.behind a.tokens (sep ++ us) ds h.boundary (h.tokens ▸ ho) (h.tokens ▸ hs)
    (h.tokens ▸ hu)
  have hbefore : m.Before (if keep then a.comments else []) :=
    fun c hc t ht => h.before c (mem_kept hc) t ht
  have hrest : m.Aligned true a.tokens (a.tokens ++ m.tail) :=
    Seam.aligned_append rfl fun t ht c hc =>
      Nat.le_trans (h.start_le t (List.mem_append_left _ ht)) (hle c hc)
  have habreast : m.Abreast (.ofLexing a keep) (.ofLexing j keep) := by
    refine ⟨?_, rfl, rfl, ⟨_, hcomments, rfl, hbefore⟩, rfl, ?_⟩
    · change m.Aligned false a.tokens j.tokens
      rw [h.tokens]
      exact hrest.weaken
    · change j.tokens <:+ a.tokens ++ (sep ++ us)
      exact h.tokens ▸ List.suffix_rfl
  obtain ⟨ws, cs, S, hrun, htail, hcs, hcsb, hsame, hblocks, hangled, hfaults⟩ :=
    programLoop_follow [] habreast .nil ha fun _ => by simp [hf]
  have his : is = ws ++ cs.map Item.comment := by
    have hsame : relocate id is = relocate id (ws ++ cs.map Item.comment) := hsame
    rwa [relocate_id_items, relocate_id_items] at hsame
  have hS : S.faults = [] := by
    have hfaults : relocate id s'.faults = relocate id S.faults := hfaults
    rwa [relocate_id_faults, relocate_id_faults, hf, eq_comm] at hfaults
  have hpending : ∀ c ∈ cs, S.isPending c = true := by
    intro c hc
    have hlt := hcsb c hc
    unfold State.isPending
    rw [htail]
    split
    next => rfl
    next t _ ht => exact decide_eq_true (hlt t (by rw [ht]; rfl))
  have hplace := programLoop_place statement ws hcs hpending
  rw [← his] at hplace
  rcases h.separators with rfl | ⟨y, rfl, hy⟩
  · exact ⟨_, hrun.trans hplace, htail, rfl, hblocks.trans hb, hangled.trans hg, hS⟩
  · have hr : ({ S with comments := ds } : State).rest = y :: us := htail
    have hsep := programLoop_separator statement is hr hy fun c hc => by
      have hy := h.start_le y (by simp)
      have hc := hle c hc
      have htop : S.rest = y :: us := htail
      simp only [State.isPending, htop, decide_eq_false_iff_not]
      omega
    exact ⟨_, (hrun.trans hplace).trans hsep, rfl, rfl, hblocks.trans hb, hangled.trans hg, hS⟩

/-- The whole is read as the first program and then, further on, the second one. -/
theorem read_both (h : Joint n a b sep us j) (ho : Ordered 0 j.tokens)
    (hs : ∀ t ∈ j.tokens.tail, t.lineStart = true → t.spaced = true)
    (hu : ¬SpansTail j.tokens (sep ++ us).length) {keep : Bool}
    (ha : (State.ofLexing a keep).readProgram.2.faults = []) :
    (State.ofLexing j keep).readProgram.1.items = (State.ofLexing a keep).readProgram.1.items ++
        relocate (· + n) (State.ofLexing b keep).readProgram.1.items ∧
      (State.ofLexing j keep).readProgram.2.faults =
        relocate (· + n) (State.ofLexing b keep).readProgram.2.faults := by
  obtain ⟨is, s, hfirst, -, -⟩ := programLoop_ends [] (.ofLexing a keep)
  obtain ⟨is', s', hsecond, -, -⟩ := programLoop_ends [] (.ofLexing b keep)
  have hreach := programItems_onward.reaches (.ofLexing a keep)
  rw [programItems, hfirst] at hreach
  rw [readProgram_of_some hfirst] at ha ⊢
  rw [readProgram_of_some hsecond]
  obtain ⟨S, hrun, hrest, hcomments, hblocks, hangled, hfaults⟩ :=
    h.read_first ho hs hu hfirst ha hreach.blocks hreach.angled
  have hshifted : Shifted n (State.ofLexing b keep).rest S.rest := hrest ▸ h.shifted
  obtain ⟨S', hgo, hmore⟩ := programLoop_shifted is hshifted hblocks.symm hangled.symm hcomments
    (by rw [hfaults]; rfl) hsecond
  rw [readProgram_of_some (hrun.trans hgo)]
  exact ⟨rfl, hmore⟩

end Lexing.Joint

end PickSyntax
