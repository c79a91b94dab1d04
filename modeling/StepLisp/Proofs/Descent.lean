import StepLisp.Proofs.Balance

/-!
# Reading by descent

A program can be read without a stack, by two functions that call each other: one reads nodes up to
a closing parenthesis or the end, the other one expression, which begins with the token at the head.
It gives the same trees and blames the same parentheses, and no expression is ever to be read where
no token is left.

* `Descent.sequence`, `Descent.expression` and `Descent.program`;
* `Descent.sequence_read`: what the descent reads, and what a reader with a stack does meanwhile;
* `Descent.program_eq`: the descent gives what the reader gives;
* **`Tree.ofTokens_outcome`**: what becomes of a program, by its parentheses.
-/

namespace StepLisp

namespace Descent

/-- Why a reading by descent stops. -/
inductive Stop where
  | fault (e : SyntaxError)
  /-- An expression was to be read where no token is left. -/
  | noToken

/-- What a sequence read from `ts` gives: nodes, the next free number and the tokens left. -/
abbrev Sequence (ts : List Token) : Type :=
  List Node × Nat × { rest : List Token // rest.length ≤ ts.length }

/-- Puts a node before the sequence that was read behind it. -/
def prepend {ts us : List Token} (n : Node) (h : us.length ≤ ts.length) :
    Except Stop (Sequence us) → Except Stop (Sequence ts)
  | .error stop => .error stop
  | .ok (nodes, next, ⟨rest, hr⟩) => .ok (n :: nodes, next, ⟨rest, Nat.le_trans hr h⟩)

mutual

/-- The nodes up to a closing parenthesis, which is left, or up to the end. -/
def sequence (tree next : Nat) (ts : List Token) : Except Stop (Sequence ts) :=
  match ts with
  | [] => .ok ([], next, ⟨[], Nat.le_refl _⟩)
  | t :: rest =>
    match t.kind with
    | .closing => .ok ([], next, ⟨t :: rest, Nat.le_refl _⟩)
    | .opening =>
      match expression tree next (t :: rest) with
      | .error stop => .error stop
      | .ok (node, next', ⟨rest', h⟩) =>
        prepend node (Nat.le_of_lt h) (sequence tree next' rest')
    | .atom =>
      prepend (.atom ⟨tree, ⟨next⟩⟩ t.span (.ofText t.text)) (Nat.le_succ _)
        (sequence tree (next + 1) rest)
termination_by (ts.length, 1)

/-- The expression that begins with the token at the head, whatever that is. -/
def expression (tree next : Nat) (ts : List Token) :
    Except Stop (Node × Nat × { rest : List Token // rest.length < ts.length }) :=
  match ts with
  | [] => .error .noToken
  | o :: rest =>
    match sequence tree (next + 1) rest with
    | .error stop => .error stop
    | .ok (_, _, ⟨[], _⟩) => .error (.fault (.unterminated o.span))
    | .ok (children, next', ⟨c :: rest', h⟩) =>
      .ok (.expression ⟨tree, ⟨next⟩⟩ (o.span.join c.span) children, next',
        ⟨rest', Nat.lt_succ_of_lt h⟩)
termination_by (ts.length, 0)

end

/-- The program with the given tokens. -/
def program (tree : Nat) (first : NodeId) (tokens : List Token) : Except Stop Tree :=
  match sequence tree (first.index + 1) tokens with
  | .error stop => .error stop
  | .ok (children, _, ⟨[], _⟩) =>
    .ok ⟨.expression ⟨tree, first⟩ (Tree.rootSpan tokens) children⟩
  | .ok (_, _, ⟨c :: _, _⟩) => .error (.fault (.unexpectedClose c.span))

/-! ## What the descent reads -/

open Reading (finish)

/-- What a reader with a stack does with the tokens of a sequence: it comes to the tokens that are
left, which begin with a closing parenthesis, or to the same fault. -/
def Read (tree next : Nat) (items : List Node) (unclosed : List OpenExpression) (ts : List Token) :
    Except Stop (Sequence ts) → Prop
  | .ok (nodes, next', ⟨rest, _⟩) =>
    (∀ c after, rest = c :: after → c.kind = .closing) ∧
    finish tree ⟨next, items, unclosed⟩ ts =
      finish tree ⟨next', nodes.reverse ++ items, unclosed⟩ rest
  | .error (.fault e) => (finish tree ⟨next, items, unclosed⟩ ts).2 = some e
  | .error .noToken => False

section Read

variable {tree next next' : Nat} {items : List Node} {unclosed : List OpenExpression}
  {ts us : List Token} {n : Node}

theorem Read.prepend {result : Except Stop (Sequence us)} (h : us.length ≤ ts.length)
    (hf : finish tree ⟨next, items, unclosed⟩ ts = finish tree ⟨next', n :: items, unclosed⟩ us)
    (hr : Read tree next' (n :: items) unclosed us result) :
    Read tree next items unclosed ts (prepend n h result) := by
  rcases result with (e | -) | ⟨nodes, next'', ⟨rest, hrest⟩⟩
  · exact (congrArg Prod.snd hf).trans hr
  · exact hr
  · refine ⟨hr.1, hf.trans (hr.2.trans ?_)⟩
    rw [List.reverse_cons, List.append_assoc, List.singleton_append]

/-- **The descent reads what a reader with a stack reads**, and it never lacks a token. -/
theorem sequence_read (tree next : Nat) (items : List Node) (unclosed : List OpenExpression)
    (ts : List Token) : Read tree next items unclosed ts (sequence tree next ts) := by
  induction hn : ts.length using Nat.strongRecOn generalizing next items unclosed ts with
  | ind n ih =>
    subst hn
    rcases ts with _ | ⟨t, rest⟩
    · rw [sequence]
      exact ⟨nofun, rfl⟩
    rw [sequence]
    rcases hk : t.kind
    · -- the children of the expression that begins here, and then the nodes behind it
      have hopen : finish tree ⟨next, items, unclosed⟩ (t :: rest) =
          finish tree ⟨next + 1, [], ⟨⟨next⟩, t.span, items⟩ :: unclosed⟩ rest := by
        simp only [finish, hk]
      have hchildren := ih rest.length (Nat.lt_succ_self _) (next + 1) []
        (⟨⟨next⟩, t.span, items⟩ :: unclosed) rest rfl
      rw [expression]
      rcases hs : sequence tree (next + 1) rest with
        (e | -) | ⟨children, next', ⟨_ | ⟨c, rest'⟩, h⟩⟩ <;> rw [hs] at hchildren
      · exact (congrArg Prod.snd hopen).trans hchildren
      · exact hchildren
      · exact congrArg Prod.snd (hopen.trans hchildren.2)
      · have hc := hchildren.1 c rest' rfl
        have hclose : finish tree ⟨next, items, unclosed⟩ (t :: rest) =
            finish tree ⟨next', .expression ⟨tree, ⟨next⟩⟩ (t.span.join c.span) children :: items,
              unclosed⟩ rest' := by
          rw [hopen, hchildren.2]
          simp only [finish, hc, List.append_nil, List.reverse_reverse]
        exact .prepend _ hclose (ih rest'.length (Nat.lt_succ_of_lt h) next' _ unclosed rest' rfl)
    · exact ⟨fun c after heq => by rw [← (List.cons.inj heq).1, hk], rfl⟩
    · have hatom : finish tree ⟨next, items, unclosed⟩ (t :: rest) =
          finish tree ⟨next + 1, .atom ⟨tree, ⟨next⟩⟩ t.span (.ofText t.text) :: items, unclosed⟩
            rest := by
        simp only [finish, hk]
      exact .prepend _ hatom (ih rest.length (Nat.lt_succ_self _) (next + 1) _ unclosed rest rfl)

end Read

theorem program_eq (tree : Nat) (first : NodeId) (tokens : List Token) :
    program tree first tokens = (Tree.ofTokens tree first tokens).outcome.mapError .fault := by
  have hread := sequence_read tree (first.index + 1) [] [] tokens
  unfold program Tree.ofTokens
  generalize sequence tree (first.index + 1) tokens = result at hread ⊢
  rcases result with (e | -) | ⟨children, next, ⟨_ | ⟨c, rest⟩, h⟩⟩
  · have hfault : (finish tree ⟨first.index + 1, [], []⟩ tokens).2 = some e := hread
    rcases hf : finish tree ⟨first.index + 1, [], []⟩ tokens with ⟨r, fault⟩
    rw [hf] at hfault
    subst hfault
    rfl
  · exact hread.elim
  · rw [hread.2]
    simp [finish, Except.mapError]
  · have hc := hread.1 c rest rfl
    rw [hread.2]
    simp [finish, hc, Except.mapError]

end Descent

/-- **What becomes of a program, by its parentheses**: it is accepted if they are balanced, and else
the first closing one in excess is blamed, or the last opening one without a counterpart. The
descent comes to the same. -/
theorem Tree.ofTokens_outcome (tree : Nat) (first : NodeId) (tokens : List Token) :
    ((∃ t, (ofTokens tree first tokens).outcome = .ok t) ↔
      (∀ p, p <+: tokens → ¬ Excess p) ∧ opens tokens = closes tokens) ∧
    ((∃ s, (ofTokens tree first tokens).outcome = .error (.unexpectedClose s)) ↔
      ∃ p, p <+: tokens ∧ Excess p) ∧
    (∀ s, (ofTokens tree first tokens).outcome = .error (.unexpectedClose s) →
      ∃ c, FirstExcess tokens c ∧ s = c.span) ∧
    ((∃ s, (ofTokens tree first tokens).outcome = .error (.unterminated s)) ↔
      (∀ p, p <+: tokens → ¬ Excess p) ∧ opens tokens ≠ closes tokens) ∧
    (∀ s, (ofTokens tree first tokens).outcome = .error (.unterminated s) →
      ∃ o, LastUnmatched tokens o ∧ s = o.span) ∧
    Descent.program tree first tokens =
      (ofTokens tree first tokens).outcome.mapError .fault := by
  obtain ⟨hok, hclose, hopen⟩ := ofTokens_balanced tree first tokens
  refine ⟨hok, ⟨?_, ?_⟩, fun s => (hclose s).mp, ⟨?_, ?_⟩, fun s h => ((hopen s).mp h).2.2,
    Descent.program_eq tree first tokens⟩
  · rintro ⟨s, h⟩
    obtain ⟨c, ⟨p, hp, hex, -⟩, -⟩ := (hclose s).mp h
    exact ⟨p ++ [c], hp, hex⟩
  · rintro ⟨p, hp, hex⟩
    obtain ⟨c, hc⟩ := exists_firstExcess fun hn : NoExcess tokens => hn p hp hex
    exact ⟨c.span, (hclose c.span).mpr ⟨c, hc, rfl⟩⟩
  · rintro ⟨s, h⟩
    obtain ⟨hn, hne, -⟩ := (hopen s).mp h
    exact ⟨hn, hne⟩
  · rintro ⟨hn, hne⟩
    rcases h : (ofTokens tree first tokens).outcome with (s | s) | t
    · exact ⟨s, rfl⟩
    · obtain ⟨c, hc, -⟩ := (hclose s).mp h
      exact absurd hn hc.not_noExcess
    · exact absurd (hok.mp ⟨t, h⟩).2 hne

end StepLisp
