import PickSyntax.Proofs.Expression.Spelled
import PickSyntax.Proofs.Parser.Outcome
import PickSyntax.Proofs.Tree.Leaves

/-!
# Accounting for tokens

A parser that reads statements may record a fault and go on, so its outcome is no longer a
matter of success or failure alone. What it owes is an account of the tokens it has taken:
the leaves of its value are among the leaves of those tokens, in their order, and they are
all of them unless a fault was recorded on the way. A failure owes a fault.

`Accounts` states the debt with an account `acc` carried in from the tokens taken before.
Each combinator has its rule: a parser is charged with what its first part has brought in,
and at the end the leaves of the value have to be exactly what was charged.

Two more things are kept in the books. `moves` says of which values a token must have been
taken, which is what loops need. And a parser that has recorded nothing does not stop right
after a token that calls for an operand (`Settled`).
-/
namespace PickSyntax

/-- The kinds after which an operand or a list has to follow. -/
def TokenKind.awaitsOperand : TokenKind → Bool
  | .symbol y =>
    match y with
    | .leftParen | .leftBracket | .less | .plus | .minus => true
    | _ => false
  | .keyword k => k == .NOT
  | _ => false

/-- Words and marks that are never leaves and never call for an operand. -/
def TokenKind.isPlain : TokenKind → Bool
  | .symbol y => !(TokenKind.symbol y).awaitsOperand
  | .keyword k => !(TokenKind.keyword k).awaitsOperand
  | _ => false

/-- The tokens do not end in one that calls for an operand. -/
def Settled (ts : List Token) : Prop := ∀ t, ts.getLast? = some t → t.kind.awaitsOperand = false

@[simp] theorem settled_nil : Settled [] := by
  intro t h
  cases h

@[simp] theorem settled_concat {ts : List Token} {t : Token} :
    Settled (ts ++ [t]) ↔ t.kind.awaitsOperand = false := by
  simp [Settled]

@[simp] theorem settled_singleton {t : Token} : Settled [t] ↔ t.kind.awaitsOperand = false := by
  simp [Settled]

theorem settled_append_of_ne_nil {ts us : List Token} (h : us ≠ []) :
    Settled (ts ++ us) ↔ Settled us := by
  obtain ⟨vs, u, rfl⟩ := List.eq_nil_or_concat us |>.resolve_left h
  rw [List.concat_eq_append, ← List.append_assoc, settled_concat, settled_concat]

theorem Settled.append {ts us : List Token} (ht : Settled ts) (hu : Settled us) :
    Settled (ts ++ us) := by
  by_cases hne : us = []
  · simpa [hne] using ht
  · exact (settled_append_of_ne_nil hne).mpr hu

/-- The text of the token says the same as its kind. -/
def Token.WellSpelled (t : Token) : Prop :=
  match t.kind with
  | .keyword k => Keyword.ofWord? t.text.toList = some k
  | .identifier => Keyword.ofWord? t.text.toList = none
  | .systemName => t.text = "@" ++ Grammar.systemName t.text
  | _ => True

section Leaves
variable {t : Token}

theorem Token.leaves_of_isPlain (h : t.kind.isPlain = true) : t.leaves = [] := by
  unfold leaves
  cases hk : t.kind <;> simp_all [TokenKind.isPlain]

theorem Token.settled_of_isPlain (h : t.kind.isPlain = true) : t.kind.awaitsOperand = false := by
  cases hk : t.kind <;> simp_all [TokenKind.isPlain]

/-- A word read as a name is a leaf exactly when it is not a keyword. -/
theorem Token.WellSpelled.nameLeaves (h : t.WellSpelled) (hw : t.kind.isWord = true) :
    nameLeaves t.text = t.leaves := by
  unfold WellSpelled at h
  unfold PickSyntax.nameLeaves leaves
  cases hk : t.kind <;> simp_all [TokenKind.isWord]

theorem Token.WellSpelled.systemLeaves (h : t.WellSpelled) (hk : t.kind = .systemName) :
    systemLeaves (Grammar.systemName t.text) = t.leaves := by
  unfold WellSpelled at h
  rw [hk] at h
  rw [PickSyntax.systemLeaves, leaves, hk, ← h]

theorem TokenKind.isWord_of_isName {k : TokenKind} (h : k.isName = true) : k.isWord = true := by
  cases k <;> simp_all [isName, isWord]

theorem TokenKind.settled_of_isName {k : TokenKind} (h : k.isName = true) :
    k.awaitsOperand = false := by
  cases k with
  | keyword k => cases k <;> simp_all [isName, Keyword.isSoft, awaitsOperand]
  | _ => simp_all [isName, awaitsOperand]

end Leaves

/-- Operators are not leaves. -/
theorem BinaryOp.Spelling.leaves {op : BinaryOp} {ts : List Token} (h : op.Spelling ts) :
    leavesOf ts = [] := by
  cases h with
  | word hk => simp [Token.leaves, hk]
  | mark hk => simp [Token.leaves, hk]
  | marks hk hu => simp [Token.leaves, hk, hu]

theorem leaves_of_unaryOf? {t : Token} {op : UnaryOp} (h : Grammar.unaryOf? t.kind = some op) :
    t.leaves = [] := by
  unfold Token.leaves
  cases hk : t.kind <;> simp_all [Grammar.unaryOf?]

/-- The leaves of spelled expressions are those of the tokens that spell them, and the last
of these is an operand or a closing mark. -/
theorem Spells.leaves {ts : List Token} {es : List Expr} (h : Spells ts es)
    (hw : ∀ t ∈ ts, t.WellSpelled) : Expr.leavesAll es = leavesOf ts ∧ Settled ts := by
  induction h with
  | nothing => exact ⟨rfl, settled_nil⟩
  | comma _ _ hc he ih₁ ih₂ =>
    obtain ⟨h₁, -⟩ := ih₁ fun t ht => hw t (by simp [ht])
    obtain ⟨h₂, hs⟩ := ih₂ fun t ht => hw t (by simp [ht])
    have hne := he.ne_nil (by simp)
    simp only [Expr.leavesAll, List.append_nil] at h₂
    refine ⟨?_, ?_⟩
    · simp [h₁, h₂, Token.leaves, hc]
    · rw [settled_append_of_ne_nil (by simp), ← List.singleton_append, settled_append_of_ne_nil hne]
      exact hs
  | binary _ hop hr ih₁ ih₂ =>
    obtain ⟨h₁, -⟩ := ih₁ fun t ht => hw t (by simp [ht])
    obtain ⟨h₂, hs⟩ := ih₂ fun t ht => hw t (by simp [ht])
    have hne := hr.ne_nil (by simp)
    refine ⟨?_, ?_⟩
    · simp only [Expr.leavesAll, List.append_nil] at h₁ h₂
      simp [h₁, h₂, hop.leaves]
    · rw [settled_append_of_ne_nil (by simp [hne]), settled_append_of_ne_nil hne]
      exact hs
  | unary hop he ih =>
    obtain ⟨h₁, hs⟩ := ih fun t ht => hw t (by simp [ht])
    have hne := he.ne_nil (by simp)
    refine ⟨?_, ?_⟩
    · simp only [Expr.leavesAll, List.append_nil] at h₁
      simp [h₁, leaves_of_unaryOf? hop]
    · rw [← List.singleton_append, settled_append_of_ne_nil hne]
      exact hs
  | name hk =>
    have := (hw _ (by simp)).nameLeaves (TokenKind.isWord_of_isName hk)
    exact ⟨by simp [this], by
      simpa using TokenKind.settled_of_isName hk⟩
  | number hk => simp [Token.leaves, TokenKind.awaitsOperand, hk]
  | string hk => simp [Token.leaves, TokenKind.awaitsOperand, hk]
  | system hk =>
    have := (hw _ (by simp)).systemLeaves hk
    exact ⟨by simp [this], by simp [hk, TokenKind.awaitsOperand]⟩
  | call hk ho _ hc ih =>
    obtain ⟨h₁, -⟩ := ih fun t ht => hw t (by simp [ht])
    have hname := (hw _ (by simp)).nameLeaves hk
    refine ⟨?_, ?_⟩
    · simp [h₁, hname, Token.leaves, ho, hc]
    · rw [← List.cons_append, ← List.cons_append, settled_concat, hc]
      rfl
  | dynamic hk ho _ _ hc ih =>
    obtain ⟨h₁, -⟩ := ih fun t ht => hw t (by simp [ht])
    have hname := (hw _ (by simp)).nameLeaves (TokenKind.isWord_of_isName hk)
    simp only [Expr.leavesAll, Expr.leavesAll_append, Expr.leavesAll_toList] at h₁
    refine ⟨?_, ?_⟩
    · simp [h₁, hname, Token.leaves, ho, hc]
    · rw [← List.cons_append, ← List.cons_append, settled_concat, hc]
      rfl
  | substring hk ho _ hc ih =>
    obtain ⟨h₁, -⟩ := ih fun t ht => hw t (by simp [ht])
    have hname := (hw _ (by simp)).nameLeaves (TokenKind.isWord_of_isName hk)
    simp only [Expr.leavesAll, Expr.leavesAll_toList] at h₁
    refine ⟨?_, ?_⟩
    · simp [h₁, hname, Token.leaves, ho, hc]
    · rw [← List.cons_append, ← List.cons_append, settled_concat, hc]
      rfl
  | cursor hk ho _ hc ih =>
    obtain ⟨h₁, -⟩ := ih fun t ht => hw t (by simp [ht])
    simp only [Expr.leavesAll, Expr.leavesAll_toList] at h₁
    refine ⟨?_, ?_⟩
    · simp [h₁, Token.leaves, hk, ho, hc]
    · rw [← List.cons_append, ← List.cons_append, settled_concat, hc]
      rfl
  | paren ho _ hc ih =>
    obtain ⟨h₁, -⟩ := ih fun t ht => hw t (by simp [ht])
    simp only [Expr.leavesAll, List.append_nil] at h₁
    refine ⟨?_, ?_⟩
    · simp [h₁, Token.leaves, ho, hc]
    · rw [← List.cons_append, settled_concat, hc]
      rfl

namespace Parser

variable {α β γ ι : Type}

/-- All tokens that are left say the same by text and kind. -/
def State.WellSpelled (s : State) : Prop := ∀ t ∈ s.rest, t.WellSpelled

/-- `s'` is `s` after the tokens `ts`, up to comments placed and faults recorded. -/
structure State.Went (s : State) (ts : List Token) (s' : State) : Prop where
  rest : s.rest = ts ++ s'.rest
  previous : s'.previous = ts.getLast?.or s.previous
  blocks : s'.blocks = s.blocks
  angled : s'.angled = s.angled
  faults : s.faults <+: s'.faults

namespace State.Went
variable {s s' s'' : State} {ts us : List Token}

theorem refl (s : State) : s.Went [] s :=
  ⟨rfl, rfl, rfl, rfl, List.prefix_rfl⟩

theorem trans (h : s.Went ts s') (k : s'.Went us s'') : s.Went (ts ++ us) s'' where
  rest := by rw [h.rest, k.rest, List.append_assoc]
  previous := by rw [k.previous, h.previous, List.getLast?_append, Option.or_assoc]
  blocks := k.blocks.trans h.blocks
  angled := k.angled.trans h.angled
  faults := h.faults.trans k.faults

theorem length_le (h : s.Went ts s') : s'.rest.length ≤ s.rest.length := by
  rw [h.rest, List.length_append]
  omega

theorem length_lt (h : s.Went ts s') (hts : ts ≠ []) : s'.rest.length < s.rest.length := by
  have := List.length_pos_iff.mpr hts
  rw [h.rest, List.length_append]
  omega

theorem wellSpelled (h : s.Went ts s') (hw : s.WellSpelled) : s'.WellSpelled := by
  intro t ht
  exact hw t (by rw [h.rest]; exact List.mem_append_right _ ht)

/-- Faults are never taken back, so a run that has recorded none did so in both its parts. -/
theorem faults_eq (h : s.Went ts s') (k : s'.Went us s'') (he : s''.faults = s.faults) :
    s'.faults = s.faults ∧ s''.faults = s'.faults := by
  have hl := h.faults.length_le
  have kl := k.faults.length_le
  rw [he] at kl
  have h₁ := h.faults.eq_of_length (Nat.le_antisymm hl kl)
  exact ⟨h₁.symm, he.trans h₁⟩

end State.Went

theorem State.Took.went {s s' : State} {ts : List Token} (h : s.Took ts s')
    (hf : s.faults <+: s'.faults) : s.Went ts s' :=
  ⟨h.rest, h.previous, h.blocks, h.angled, hf⟩

/-- The run of `p` from `s` accounts for the tokens it takes, with `acc` brought in. -/
def AccountsAt (acc : List Leaf) (p : Parser α) (moves : α → Bool) (leaves : α → List Leaf)
    (s : State) : Prop :=
  ∃ ts, s.Went ts (p.run s).2 ∧
    match (p.run s).1 with
    | none => (p.run s).2.faults ≠ s.faults
    | some v => (moves v = true → ts ≠ []) ∧ (leaves v).Sublist (acc ++ leavesOf ts) ∧
      ((p.run s).2.faults = s.faults → leaves v = acc ++ leavesOf ts ∧ Settled ts)

/-- `p` accounts for its tokens from every state with less than `n` of them left. -/
def Accounts (n : Nat) (acc : List Leaf) (p : Parser α) (moves : α → Bool)
    (leaves : α → List Leaf) : Prop :=
  ∀ s, s.rest.length < n → s.WellSpelled → AccountsAt acc p moves leaves s

/-- Of no value a token must have been taken. -/
@[reducible] def never (_ : α) : Bool := false

/-- Of every value a token must have been taken. -/
@[reducible] def always (_ : α) : Bool := true

/-- A value that is no leaf and holds none. -/
@[reducible] def leafless (_ : α) : List Leaf := []

section Rules
variable {n : Nat} {acc : List Leaf} {p q : Parser α} {f : α → Parser β} {s : State}
variable {m m' : α → Bool} {r : β → Bool} {leaves : α → List Leaf} {leaves' : β → List Leaf}

/-- One parser after another: the second is charged with the leaves of the first value. -/
theorem AccountsAt.seq (h : AccountsAt acc p m leaves s) (hw : s.WellSpelled)
    (hf : ∀ a s', p.run s = (some a, s') → s'.rest.length ≤ s.rest.length → s'.WellSpelled →
      AccountsAt (leaves a) (f a) (fun b => !m a && r b) leaves' s') :
    AccountsAt acc (p >>= f) r leaves' s := by
  obtain ⟨ts, ht, h⟩ := h
  rcases hr : p.run s with ⟨_ | a, s'⟩ <;> rw [hr] at ht h
  · refine ⟨ts, ?_, ?_⟩ <;> rw [run_bind_none hr]
    · exact ht
    · exact h
  · obtain ⟨hm, hsub, hclean⟩ := h
    obtain ⟨us, hu, h⟩ := hf a s' hr ht.length_le (ht.wellSpelled hw)
    refine ⟨ts ++ us, ?_, ?_⟩ <;> rw [run_bind_some hr]
    · exact ht.trans hu
    rcases hr' : (f a).run s' with ⟨_ | b, s''⟩ <;> rw [hr'] at hu h
    · exact fun he => h (ht.faults_eq hu he).2
    · obtain ⟨hm', hsub', hclean'⟩ := h
      refine ⟨fun hb => ?_, ?_, fun he => ?_⟩
      · cases hma : m a with
        | true => simp [hm hma]
        | false => simp [hm' (by simp [hma, hb])]
      · rw [leavesOf_append, ← List.append_assoc]
        exact hsub'.trans (List.Sublist.append_right hsub _)
      · obtain ⟨he₁, he₂⟩ := ht.faults_eq hu he
        obtain ⟨h₁, hs₁⟩ := hclean he₁
        obtain ⟨h₂, hs₂⟩ := hclean' he₂
        refine ⟨?_, hs₁.append hs₂⟩
        rw [h₂, h₁, leavesOf_append, List.append_assoc]

/-- What was brought in stands before what is read. -/
theorem AccountsAt.frame (h : AccountsAt [] p m leaves s) :
    AccountsAt acc p m (fun a => acc ++ leaves a) s := by
  obtain ⟨ts, ht, h⟩ := h
  refine ⟨ts, ht, ?_⟩
  cases hr : (p.run s).1 with
  | none => simpa only [hr] using h
  | some v =>
    rw [hr] at h
    obtain ⟨hm, hsub, hclean⟩ := h
    exact ⟨hm, hsub.append_left _, fun he => ⟨congrArg (acc ++ ·) (hclean he).1, (hclean he).2⟩⟩

theorem AccountsAt.bind (h : AccountsAt [] p m leaves s) (hw : s.WellSpelled)
    (hf : ∀ a s', p.run s = (some a, s') → s'.rest.length ≤ s.rest.length → s'.WellSpelled →
      AccountsAt (acc ++ leaves a) (f a) (fun b => !m a && r b) leaves' s') :
    AccountsAt acc (p >>= f) r leaves' s :=
  h.frame.seq hw hf

theorem AccountsAt.mono (h : AccountsAt acc p m leaves s)
    (hm : ∀ v, m' v = true → m v = true) : AccountsAt acc p m' leaves s := by
  obtain ⟨ts, ht, h⟩ := h
  refine ⟨ts, ht, ?_⟩
  cases hr : (p.run s).1 with
  | none => simpa only [hr] using h
  | some v =>
    rw [hr] at h
    exact ⟨fun hv => h.1 (hm v hv), h.2⟩

theorem Accounts.mono (h : Accounts n acc p m leaves) (hm : ∀ v, m' v = true → m v = true) :
    Accounts n acc p m' leaves :=
  fun s hs hw => (h s hs hw).mono hm

theorem AccountsAt.give {v : α} (h : leaves v = acc) (hm : m v = false) :
    AccountsAt acc (pure v) m leaves s :=
  ⟨[], .refl s, by simp [hm], by simp [h], by simp [h]⟩

/-- At the end the leaves of the value are what was charged. -/
theorem Accounts.give {v : α} (h : leaves v = acc) (hm : m v = false) :
    Accounts n acc (pure v) m leaves :=
  fun _ _ _ => AccountsAt.give h hm

theorem Accounts.bind (h : Accounts n [] p m leaves)
    (hf : ∀ a, Accounts n (acc ++ leaves a) (f a) (fun b => !m a && r b) leaves') :
    Accounts n acc (p >>= f) r leaves' :=
  fun s hs hw => (h s hs hw).bind hw fun a s' _ hle hw' =>
    hf a s' (Nat.lt_of_le_of_lt hle hs) hw'

/-- The rule for parsers of which nobody asks whether they have taken a token. -/
theorem Accounts.andThen (h : Accounts n [] p m leaves)
    (hf : ∀ a, Accounts n (acc ++ leaves a) (f a) r leaves') :
    Accounts n acc (p >>= f) r leaves' :=
  h.bind fun a => (hf a).mono fun b hb => by simp_all

/-- A value that is only wrapped. -/
theorem Accounts.map {g : α → β} (h : Accounts n acc p m leaves)
    (hg : ∀ a, leaves' (g a) = leaves a) :
    Accounts n acc (p >>= fun a => pure (g a)) never leaves' :=
  fun s hs hw => (h s hs hw).seq hw fun a _ _ _ _ => AccountsAt.give (hg a) (by simp)

theorem Accounts.look {f : State → Parser β} (h : ∀ s, s.rest.length < n → s.WellSpelled →
    AccountsAt acc (f s) r leaves' s) : Accounts n acc (look >>= f) r leaves' :=
  h

theorem AccountsAt.look {f : State → Parser β} (h : AccountsAt acc (f s) r leaves' s) :
    AccountsAt acc (look >>= f) r leaves' s :=
  h

/-- Where a block is open, the blocks around it can be told. -/
theorem AccountsAt.enclosing {g : List Block → Parser β} (hb : s.blocks ≠ [])
    (h : ∀ outer, AccountsAt acc (g outer) r leaves' s) :
    AccountsAt acc (enclosing >>= g) r leaves' s := by
  obtain ⟨b, outer, hb⟩ := List.exists_cons_of_ne_nil hb
  unfold AccountsAt
  rw [run_bind_some (run_enclosing hb)]
  exact h outer

theorem Accounts.ite {c : Prop} [Decidable c] (ht : c → Accounts n acc p m leaves)
    (he : ¬c → Accounts n acc q m leaves) : Accounts n acc (if c then p else q) m leaves := by
  split
  next h => exact ht h
  next h => exact he h

theorem AccountsAt.ite {c : Prop} [Decidable c] (ht : c → AccountsAt acc p m leaves s)
    (he : ¬c → AccountsAt acc q m leaves s) : AccountsAt acc (if c then p else q) m leaves s := by
  split
  next h => exact ht h
  next h => exact he h

theorem AccountsAt.inBlock {b : Block}
    (h : AccountsAt acc p m leaves { s with blocks := b :: s.blocks }) :
    AccountsAt acc (inBlock b p) m leaves s := by
  obtain ⟨ts, ht, h⟩ := h
  exact ⟨ts, ⟨ht.rest, ht.previous, congrArg List.tail ht.blocks, ht.angled, ht.faults⟩, h⟩

/-- A parser that keeps to one statement accounts for its tokens if its successes do. -/
theorem Meets.accountsAt {Q : List Token → α → State → Prop} (h : Meets p s Q)
    (hw : s.WellSpelled) (hq : ∀ ts v s', s.Took ts s' → (∀ t ∈ ts, t.WellSpelled) → Q ts v s' →
      (m v = true → ts ≠ []) ∧ leaves v = acc ++ leavesOf ts ∧ Settled ts) :
    AccountsAt acc p m leaves s := by
  obtain ⟨ts, ht, h⟩ := h
  refine ⟨ts, ht.went ?_, ?_⟩ <;> rcases hr : p.run s with ⟨_ | v, s'⟩ <;> rw [hr] at ht h
  · obtain ⟨f, hf⟩ := h
    exact ⟨[f], hf.symm⟩
  · exact ⟨[], by rw [List.append_nil]; exact h.1.symm⟩
  · obtain ⟨f, hf⟩ := h
    change s'.faults ≠ s.faults
    rw [hf]
    simp
  · have hts : ∀ t ∈ ts, t.WellSpelled := fun t hmem =>
      hw t (by rw [ht.rest]; exact List.mem_append_left _ hmem)
    obtain ⟨hm, hl, hset⟩ := hq ts v s' ht hts h.2
    exact ⟨hm, hl ▸ List.Sublist.refl _, fun _ => ⟨hl, hset⟩⟩

end Rules

/-- The step wants to go round again. -/
def Step.isMore : Step β γ → Bool
  | .more _ => true
  | .done _ => false

/-- The leaves of what a step of a loop yields. -/
def Step.leaves (carried : β → List Leaf) (result : γ → List Leaf) : Step β γ → List Leaf
  | .more v => carried v
  | .done c => result c

section Recursion
variable {n : Nat} {step : β → Parser (Step β γ)} {I : β → Prop}
variable {carried : β → List Leaf} {result : γ → List Leaf}

/-- A loop accounts for all its rounds if each round does, charged with what the rounds
before it have brought in. -/
theorem AccountsAt.loop {J : β → State → Prop}
    (hstep : ∀ v s, J v s → s.rest.length < n → s.WellSpelled →
      AccountsAt (carried v) (step v) Step.isMore (Step.leaves carried result) s)
    (hinv : ∀ v v' s s', J v s → s'.blocks = s.blocks →
      (step v).run s = (some (.more v'), s') → J v' s') {v : β} {s : State} (hv : J v s)
    (hs : s.rest.length < n) (hw : s.WellSpelled) :
    AccountsAt (carried v) (loop step v) never result s := by
  induction hk : s.rest.length using Nat.strongRecOn generalizing v s with
  | ind k ih =>
    obtain ⟨ts, ht, h⟩ := hstep v s hv hs hw
    unfold AccountsAt
    rw [loop_run]
    rcases hr : (step v).run s with ⟨_ | v' | c, s'⟩ <;> rw [hr] at ht h
    · exact ⟨ts, ht, h⟩
    · obtain ⟨hm, hsub, hclean⟩ := h
      have hlt := ht.length_lt (hm rfl)
      obtain ⟨us, hu, h⟩ := ih _ (hk ▸ hlt) (hinv v v' s s' hv ht.blocks hr) (Nat.lt_trans hlt hs)
        (ht.wellSpelled hw) rfl
      simp only [hlt, if_true]
      refine ⟨ts ++ us, ht.trans hu, ?_⟩
      rcases hr' : (Parser.loop step v').run s' with ⟨_ | c, s''⟩ <;> rw [hr'] at hu h
      · exact fun he => h (ht.faults_eq hu he).2
      · obtain ⟨-, hsub', hclean'⟩ := h
        refine ⟨nofun, ?_, fun he => ?_⟩
        · rw [leavesOf_append, ← List.append_assoc]
          exact hsub'.trans (List.Sublist.append_right hsub _)
        · obtain ⟨he₁, he₂⟩ := ht.faults_eq hu he
          obtain ⟨h₁, hs₁⟩ := hclean he₁
          obtain ⟨h₂, hs₂⟩ := hclean' he₂
          refine ⟨?_, hs₁.append hs₂⟩
          rw [h₂, leavesOf_append, ← List.append_assoc, ← h₁]
          rfl
    · obtain ⟨-, hsub, hclean⟩ := h
      exact ⟨ts, ht, nofun, hsub, hclean⟩

theorem Accounts.loop
    (hstep : ∀ v, I v → Accounts n (carried v) (step v) Step.isMore (Step.leaves carried result))
    (hinv : ∀ v v' s s', I v → (step v).run s = (some (.more v'), s') → I v') {v : β} (hv : I v) :
    Accounts n (carried v) (loop step v) never result := fun _ hs hw =>
  AccountsAt.loop (J := fun v _ => I v) (fun v s hv hs hw => hstep v hv s hs hw)
    (fun v v' s s' hv _ => hinv v v' s s' hv) hv hs hw

theorem Accounts.knot {body : (ι → Parser α) → ι → Parser α} {m : α → Bool}
    {leaves : α → List Leaf}
    (hbody : ∀ n nested, (∀ j, Accounts n [] (nested j) m leaves) →
      ∀ i, Accounts (n + 1) [] (body nested i) m leaves) (i : ι) :
    Accounts n [] (knot body i) m leaves := by
  intro s hs hw
  clear hs
  change AccountsAt [] ⟨knotFrom body i⟩ m leaves s
  induction hk : s.rest.length using Nat.strongRecOn generalizing i s with
  | ind k ih =>
    unfold AccountsAt
    simp only
    rw [knotFrom]
    refine hbody k _ ?_ i s (by omega) hw
    intro j s' hlt hw'
    have := ih _ hlt j s' hw' rfl
    unfold AccountsAt at this ⊢
    simpa only [hk, hlt, if_true] using this

end Recursion

section Primitives
variable {n : Nat} {acc : List Leaf} {k : TokenKind} {d : String}
variable {p : Parser α} {m : α → Bool} {leaves : α → List Leaf}

theorem expected_accounts : Accounts n acc (expected d : Parser α) m leaves :=
  fun _ _ hw => (Meets.expected (Q := fun _ _ _ => False)).accountsAt hw fun _ _ _ _ _ h => h.elim

theorem reportFail_accounts {f : Fault} :
    Accounts n acc (report f >>= fun _ => (fail : Parser α)) m leaves :=
  fun _ _ hw => (Meets.reportFail (Q := fun _ _ _ => False)).accountsAt hw fun _ _ _ _ _ h => h.elim

theorem report_accounts {f : Fault} : Accounts n [] (report f) never leafless :=
  fun _ _ _ => ⟨[], ⟨rfl, rfl, rfl, rfl, List.prefix_append _ _⟩, by simp, by simp, by simp⟩

theorem accept_accounts (hk : k.isPlain = true) : Accounts n [] (accept k) id leafless := by
  intro s _ hw
  refine (Meets.accept (Q := fun ts b _ => (∃ t, ts = [t] ∧ t.kind = k ∧ b = true) ∨
    ts = [] ∧ b = false) (fun t _ _ ht => .inl ⟨t, rfl, ht, rfl⟩)
    fun _ => .inr ⟨rfl, rfl⟩).accountsAt hw ?_
  rintro _ _ s' - - (⟨t, rfl, ht, rfl⟩ | ⟨rfl, rfl⟩)
  · rw [← ht] at hk
    simp [Token.leaves_of_isPlain hk, Token.settled_of_isPlain hk]
  · simp

theorem acceptAnywhere_accounts (hk : k.isPlain = true) :
    Accounts n [] (acceptAnywhere k) id leafless := by
  intro s _ hw
  refine (Meets.acceptAnywhere (Q := fun ts b _ => (∃ t, ts = [t] ∧ t.kind = k ∧ b = true) ∨
    ts = [] ∧ b = false) (fun t _ _ ht => .inl ⟨t, rfl, ht, rfl⟩)
    fun _ => .inr ⟨rfl, rfl⟩).accountsAt hw ?_
  rintro _ _ s' - - (⟨t, rfl, ht, rfl⟩ | ⟨rfl, rfl⟩)
  · rw [← ht] at hk
    simp [Token.leaves_of_isPlain hk, Token.settled_of_isPlain hk]
  · simp

theorem require_accounts (hk : k.isPlain = true) :
    Accounts n [] (require k d) always leafless := by
  intro s _ hw
  refine (Meets.require (Q := fun ts _ _ => ∃ t, ts = [t] ∧ t.kind = k)
    fun t _ _ ht => ⟨t, rfl, ht⟩).accountsAt hw ?_
  rintro _ _ s' - - ⟨t, rfl, ht⟩
  rw [← ht] at hk
  simp [Token.leaves_of_isPlain hk, Token.settled_of_isPlain hk]

theorem State.rest_of_nameNext {s : State} (h : s.nameNext = true) :
    ∃ t us, s.rest = t :: us ∧ t.kind.isName = true := by
  unfold nameNext at h
  cases hr : s.rest with
  | nil => simp [hr] at h
  | cons t us => exact ⟨t, us, rfl, by simp_all⟩

theorem nextNamed_accountsAt {s : State} (h : s.nameNext = true) (hw : s.WellSpelled) :
    AccountsAt [] next always (fun t => nameLeaves t.text) s := by
  obtain ⟨t, us, hr, hk⟩ := State.rest_of_nameNext h
  refine (Meets.next (Q := fun ts v _ => ts = [t] ∧ v = t) hr ⟨rfl, rfl⟩).accountsAt hw ?_
  rintro _ v s' - hts ⟨rfl, rfl⟩
  have := (hts v (by simp)).nameLeaves (TokenKind.isWord_of_isName hk)
  simp [this, TokenKind.settled_of_isName hk]

theorem name_accounts : Accounts n [] (name d) always nameLeaves := by
  refine Accounts.look fun s hs hw => AccountsAt.ite (fun h => ?_) fun _ => ?_
  · refine (nextNamed_accountsAt h hw).bind hw fun t _ _ _ _ => ?_
    exact AccountsAt.give (by simp) rfl
  · exact expected_accounts s hs hw

/-- An optional value after a keyword. The function of the leaves is given by what it does
on the two shapes of an option. -/
theorem afterKeyword_accounts {k : Keyword} {leaves? : Option α → List Leaf}
    (h : Accounts n [] p m leaves) (hk : (TokenKind.keyword k).isPlain = true)
    (hnone : leaves? none = []) (hsome : ∀ a, leaves? (some a) = leaves a) :
    Accounts n [] (afterKeyword? k p) never leaves? := by
  refine (accept_accounts hk).andThen fun b => Accounts.ite (fun _ => ?_) fun _ => ?_
  · exact h.andThen fun a => Accounts.give (by simp [hsome]) rfl
  · exact Accounts.give (by simp [hnone]) rfl

theorem afterComma_accounts {leaves? : Option α → List Leaf} (h : Accounts n [] p m leaves)
    (hnone : leaves? none = []) (hsome : ∀ a, leaves? (some a) = leaves a) :
    Accounts n [] (afterComma? p) never leaves? := by
  refine (accept_accounts rfl).andThen fun b => Accounts.ite (fun _ => ?_) fun _ => ?_
  · exact h.andThen fun a => Accounts.give (by simp [hsome]) rfl
  · exact Accounts.give (by simp [hnone]) rfl

theorem commaStep_accounts (h : Accounts n [] p m leaves) (vs : List α) :
    Accounts n (vs.flatMap leaves) (commaStep p vs) Step.isMore
      (Step.leaves (·.flatMap leaves) (·.flatMap leaves)) := by
  refine (accept_accounts rfl).bind fun b => ?_
  cases b with
  | true => exact h.andThen fun v => Accounts.give (by simp [Step.leaves]) rfl
  | false => exact Accounts.give (by simp [Step.leaves]) rfl

theorem commaList_accounts (h : Accounts n [] p m leaves) :
    Accounts n [] (commaList p) never (·.flatMap leaves) := by
  refine h.andThen fun v => ?_
  simpa using Accounts.loop (I := fun _ => True) (fun vs _ => commaStep_accounts h vs)
    (fun _ _ _ _ _ _ => trivial) (v := [v]) trivial

theorem State.went_skipWhile (s : State) (c : Token → Bool) :
    s.Went (s.rest.takeWhile c) (s.skipWhile c) :=
  ⟨List.takeWhile_append_dropWhile.symm, rfl, rfl, rfl, List.prefix_rfl⟩

/-- A failure that is caught has recorded its fault, so what follows it may drop leaves. -/
theorem AccountsAt.catchFailure {f : Option α → Parser β} {r : β → Bool} {leaves' : β → List Leaf}
    {s : State} (h : AccountsAt [] p m leaves s) (hw : s.WellSpelled)
    (hsome : ∀ a s', p.run s = (some a, s') → s'.rest.length ≤ s.rest.length → s'.WellSpelled →
      AccountsAt (acc ++ leaves a) (f (some a)) (fun b => !m a && r b) leaves' s')
    (hnone : ∀ ts s', s.Went ts s' → ∃ us, s'.Went us ((f none).run s').2 ∧
      ∀ b, ((f none).run s').1 = some b →
        (r b = true → ts ++ us ≠ []) ∧ (leaves' b).Sublist (acc ++ leavesOf us)) :
    AccountsAt acc (catchFailure p >>= f) r leaves' s := by
  rcases hr : p.run s with ⟨_ | a, s'⟩
  · obtain ⟨ts, ht, h⟩ := h
    rw [hr] at ht h
    obtain ⟨us, hu, hval⟩ := hnone ts s' ht
    have hrun : (Parser.catchFailure p >>= f).run s = (f none).run s' := by
      rw [run_bind, run_catchFailure, hr]
    unfold AccountsAt
    rw [hrun]
    refine ⟨ts ++ us, ht.trans hu, ?_⟩
    rcases hr' : (f none).run s' with ⟨_ | b, s''⟩ <;> rw [hr'] at hu hval
    · exact fun he => absurd (ht.faults_eq hu he).1 h
    · obtain ⟨hm, hsub⟩ := hval b rfl
      refine ⟨hm, ?_, fun he => absurd (ht.faults_eq hu he).1 h⟩
      rw [leavesOf_append]
      exact hsub.trans ((List.sublist_append_right _ _).append_left _)
  · have hbind : (Parser.catchFailure p >>= f).run s = (p >>= fun a => f (some a)).run s := by
      rw [run_bind, run_catchFailure, run_bind, hr]
    have := h.bind (f := fun a => f (some a)) hw hsome
    unfold AccountsAt at this ⊢
    rwa [hbind]

theorem AccountsAt.orSkip {leaves? : Option α → List Leaf} {s : State}
    (h : AccountsAt [] p m leaves s) (hw : s.WellSpelled) (hnone : leaves? none = [])
    (hsome : ∀ a, leaves? (some a) = leaves a) : AccountsAt [] (orSkip p) never leaves? s := by
  refine h.catchFailure hw (fun a s' _ _ _ => ?_) fun ts s' _ => ?_
  · exact AccountsAt.give (by simp [hsome]) (by simp)
  · have hskip := s'.went_skipWhile fun t => !t.lineStart && !t.kind.resumes
    refine ⟨_, hskip, fun b hb => ⟨nofun, ?_⟩⟩
    cases hb
    simp [hnone]

section Past
variable {f : α → Parser β} {r r' : β → Bool} {leaves' : β → List Leaf}
variable {s : State} {t u : Token} {us : List Token} {a : α}

/-- A word or mark that is known to be next and is only skipped. If it calls for an operand,
the parser after it has to take one. -/
theorem AccountsAt.after (hr : s.rest = t :: us) (hrun : p.run s = (some a, s.past t us))
    (ht : t.leaves = []) (hset : t.kind.awaitsOperand = false ∨ ∀ b, r' b = true)
    (h : AccountsAt acc (f a) r' leaves' (s.past t us)) : AccountsAt acc (p >>= f) r leaves' s := by
  obtain ⟨ts, hts, h⟩ := h
  have hone : s.Went [t] (s.past t us) := (State.took_past hr).went List.prefix_rfl
  unfold AccountsAt
  rw [run_bind_some hrun]
  refine ⟨[t] ++ ts, hone.trans hts, ?_⟩
  rcases hr' : (f a).run (s.past t us) with ⟨_ | b, s'⟩ <;> rw [hr'] at hts h
  · exact h
  · obtain ⟨hm, hsub, hclean⟩ := h
    refine ⟨by simp, by simpa [ht] using hsub, fun he => ?_⟩
    obtain ⟨hl, hs⟩ := hclean he
    refine ⟨by simpa [ht] using hl, ?_⟩
    obtain hset | hset := hset
    · exact Settled.append (by simpa using hset) hs
    · exact (settled_append_of_ne_nil (hm (hset b))).mpr hs

theorem AccountsAt.past (hr : s.rest = t :: us) (hrun : p.run s = (some a, s.past t us))
    (ht : t.kind.isPlain = true) (h : AccountsAt acc (f a) r' leaves' (s.past t us)) :
    AccountsAt acc (p >>= f) r leaves' s :=
  h.after hr hrun (Token.leaves_of_isPlain ht) (.inl (Token.settled_of_isPlain ht))

/-- Skips a word or mark that is known to be next. -/
theorem Accounts.skipOne {f : Unit → Parser β} (h : Accounts n acc (f ()) never leaves')
    (hr : s.rest = t :: us) (ht : t.kind.isPlain = true) (hs : s.rest.length < n)
    (hw : s.WellSpelled) : AccountsAt acc (skip 1 >>= f) r leaves' s := by
  have hone : s.Went [t] (s.past t us) := (State.took_past hr).went List.prefix_rfl
  exact AccountsAt.past hr (run_skip_one hr) ht
    (h _ (Nat.lt_of_le_of_lt hone.length_le hs) (hone.wellSpelled hw))

theorem Accounts.skipTwo {f : Unit → Parser β} (h : Accounts n acc (f ()) never leaves')
    (hr : s.rest = t :: u :: us) (ht : t.kind.isPlain = true) (hu : u.kind.isPlain = true)
    (hs : s.rest.length < n) (hw : s.WellSpelled) :
    AccountsAt acc (skip 2 >>= f) r leaves' s := by
  have hone : s.Went [t] (s.past t (u :: us)) := (State.took_past hr).went List.prefix_rfl
  have htwo : (skip 2 >>= f).run s = (skip 1 >>= fun _ => skip 1 >>= f).run s := by
    rw [run_bind_some (run_skip_two hr), run_bind_some (run_skip_one hr),
      run_bind_some (run_skip_one rfl)]
  unfold AccountsAt
  rw [htwo]
  have hnext : AccountsAt acc (skip 1 >>= f) never leaves' (s.past t (u :: us)) :=
    h.skipOne rfl hu (Nat.lt_of_le_of_lt hone.length_le hs) (hone.wellSpelled hw)
  exact hnext.past hr (run_skip_one hr) ht

/-- A mark that may call for an operand, if it is there. -/
theorem acceptOpening_accounts {y : Symbol} {f : Bool → Parser β}
    (ht : Accounts n acc (f true) always leaves') (hf : Accounts n acc (f false) r leaves') :
    Accounts n acc (acceptSymbol y >>= f) r leaves' := by
  intro s hs hw
  cases h : s.isAtOnLine (.symbol y) with
  | true =>
    obtain ⟨t, us, hr, hk, -⟩ := State.rest_of_isAtOnLine h
    have hone : s.Went [t] (s.past t us) := (State.took_past hr).went List.prefix_rfl
    exact (ht _ (Nat.lt_of_le_of_lt hone.length_le hs) (hone.wellSpelled hw)).after hr
      (run_accept_true hr h) (by simp [Token.leaves, hk]) (.inr fun _ => rfl)
  | false =>
    unfold AccountsAt
    rw [acceptSymbol, run_bind_some (run_accept_false h)]
    exact hf s hs hw

/-- A mark that may call for an operand, where it has to be. -/
theorem requireOpening_accounts {y : Symbol} {f : Token → Parser β}
    (h : ∀ t, Accounts n acc (f t) always leaves') :
    Accounts n acc (requireSymbol y >>= f) r leaves' := by
  intro s hs hw
  cases hat : s.isAtOnLine (.symbol y) with
  | true =>
    obtain ⟨t, us, hr, hk, -⟩ := State.rest_of_isAtOnLine hat
    have hone : s.Went [t] (s.past t us) := (State.took_past hr).went List.prefix_rfl
    exact (h t _ (Nat.lt_of_le_of_lt hone.length_le hs) (hone.wellSpelled hw)).after hr
      (run_require hr hat) (by simp [Token.leaves, hk]) (.inr fun _ => rfl)
  | false =>
    refine (Meets.bind (R := fun _ _ _ => False) ?_).accountsAt hw fun _ _ _ _ _ h => h.elim
    exact Meets.look (Meets.ite (fun h => absurd h (by simp [hat])) fun _ => Meets.expected)

end Past

end Primitives

end Parser

end PickSyntax
