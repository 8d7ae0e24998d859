import LoxLang.Proofs.Rewriting

/-!
# The first token of a tree

The first line of a tree is found by a loop over a stack of trees (`Tree.loop`). It takes the tree
on top and puts the trees right below that one on the stack, the first of them on top. The loop
ends, and it gives the line of the first token that a recursion over the tree meets
(`Tree.firstToken?`). Of all places with a token this is the one that comes first, slots in order
and lists from left to right (`Tree.firstLine_depth_first`).
-/

namespace LoxLang.Tree

/-! ## The recursion -/

/-- The first token of a tree: the tree itself, or the first token of the first tree right below it
that has any. -/
def firstToken? (t : Tree) : Option Token :=
  match t.asToken? with
  | some a => some a
  | none => t.children.attach.findSome? fun u => u.1.firstToken?
termination_by t.weight
decreasing_by exact weight_lt_of_child u.2

variable {t : Tree}

theorem findSome?_attach (ts : List Tree) (f : Tree → Option Token) :
    ts.attach.findSome? (fun u => f u.1) = ts.findSome? f := by
  have hmap := List.findSome?_map (f := Subtype.val) (p := f) (l := ts.attach)
  rw [List.attach_map_subtype_val] at hmap
  exact hmap.symm

theorem eq_token_of_asToken? {a : Token} (h : t.asToken? = some a) : t = token a := by
  cases t <;> cases h
  rfl

theorem firstToken?_token (a : Token) : (token a).firstToken? = some a := by
  rw [firstToken?]
  rfl

theorem firstToken?_eq_children (h : t.asToken? = none) :
    t.firstToken? = t.children.findSome? firstToken? := by
  rw [firstToken?, h]
  exact findSome?_attach _ _

/-- The first token of a tree is the first of its tokens. -/
theorem firstToken?_eq_head? (t : Tree) : t.firstToken? = t.tokens.head? := by
  cases h : t.asToken? with
  | some a =>
    obtain rfl := eq_token_of_asToken? h
    exact firstToken?_token a
  | none =>
    have hbelow : (fun u : { u // u ∈ t.children } => u.1.firstToken?) = fun u => u.1.tokens.head? :=
      funext fun u => firstToken?_eq_head? u.1
    rw [firstToken?, h]
    dsimp only
    rw [hbelow, tokens_eq_children h, List.head?_flatMap]
    exact findSome?_attach _ fun u => u.tokens.head?
termination_by t.weight
decreasing_by exact weight_lt_of_child u.2

/-! ## The place of the first token -/

theorem firstToken?_eq_none (h : t.firstToken? = none) (path : List Nat) (a : Token) :
    t.at? path ≠ some (token a) := by
  intro ha
  rw [firstToken?_eq_head?, List.head?_eq_none_iff] at h
  exact absurd (mem_tokens_of_token ha) (h ▸ List.not_mem_nil)

/-- The token is at the end of the path, and all other places with tokens come later. -/
structure IsFirst (t : Tree) (path : List Nat) (a : Token) : Prop where
  there : t.at? path = some (token a)
  least : ∀ path' a', t.at? path' = some (token a') →
    path' = path ∨ List.Lex (· < ·) path.reverse path'.reverse

theorem isFirst_token (a : Token) : (token a).IsFirst [] a where
  there := rfl
  least path' a' h := by
    cases path' using List.reverseRecOn with
    | nil => exact .inl rfl
    | append_singleton path' j =>
      rw [at?_append_singleton] at h
      cases h

/-- The first token of the first tree with tokens comes before those of the later trees. -/
theorem IsFirst.child {before after : List Tree} {u : Tree} {path : List Nat} {a : Token}
    (h : u.IsFirst path a) (htoken : t.asToken? = none) (ht : t.children = before ++ u :: after)
    (hbefore : ∀ v ∈ before, v.firstToken? = none) : t.IsFirst (path ++ [before.length]) a where
  there := by
    rw [at?_append_singleton, ht]
    simpa using h.there
  least path' a' h' := by
    cases path' using List.reverseRecOn with
    | nil =>
      cases h'
      cases htoken
    | append_singleton path' j =>
      rw [at?_append_singleton, ht] at h'
      obtain ⟨v, hv, h'⟩ := Option.bind_eq_some_iff.1 h'
      rw [List.reverse_append, List.reverse_append]
      rcases Nat.lt_trichotomy j before.length with hj | rfl | hj
      · rw [List.getElem?_append_left hj] at hv
        exact absurd h' (firstToken?_eq_none (hbefore v (List.mem_of_getElem? hv)) _ _)
      · obtain rfl : u = v := by simpa using hv
        exact (h.least path' a' h').imp (congrArg (· ++ [before.length])) .cons
      · exact .inr (.rel hj)

/-- The first token has a place in the tree. -/
theorem exists_isFirst {t : Tree} {a : Token} (h : t.firstToken? = some a) :
    ∃ path, t.IsFirst path a := by
  cases htoken : t.asToken? with
  | some b =>
    obtain rfl := eq_token_of_asToken? htoken
    rw [firstToken?_token] at h
    cases h
    exact ⟨[], isFirst_token a⟩
  | none =>
    rw [firstToken?_eq_children htoken] at h
    obtain ⟨before, u, after, ht, hu, hbefore⟩ := List.findSome?_eq_some_iff.1 h
    have hmem : u ∈ t.children := by simp [ht]
    obtain ⟨path, hpath⟩ := exists_isFirst hu
    exact ⟨_, hpath.child htoken ht hbefore⟩
termination_by t.weight
decreasing_by exact weight_lt_of_child hmem

/-! ## The loop -/

/-- One turn of the loop takes the last tree of the stack. The loop ends with a line, or it goes on
with another stack. -/
def turn (stack : List Tree) : Json ⊕ List Tree :=
  match stack.getLast? with
  | none => .inl (.int 0)
  | some t =>
    match t.asToken? with
    | some a => .inl a.line
    | none => .inr (stack.dropLast ++ t.children.reverse)

/-- What the loop ends with, if it ends within the given number of turns. -/
def loop : Nat → List Tree → Option Json
  | 0, _ => none
  | turns + 1, stack =>
    match turn stack with
    | .inl line => some line
    | .inr stack => loop turns stack

theorem turn_concat_token (stack : List Tree) (a : Token) :
    turn (stack ++ [token a]) = .inl a.line := by
  simp [turn, asToken?]

theorem turn_concat (stack : List Tree) (h : t.asToken? = none) :
    turn (stack ++ [t]) = .inr (stack ++ t.children.reverse) := by
  simp [turn, h]

/-- Each turn makes the stack lighter, and what it leads to stays the same. -/
theorem loop_eq {turns : Nat} (pending : List Tree) (h : weights pending < turns) :
    loop turns pending.reverse = some (firstLineOf pending) := by
  induction turns generalizing pending with
  | zero => cases h
  | succ turns ih =>
    cases pending with
    | nil =>
      rw [firstLineOf]
      rfl
    | cons t pending =>
      rw [List.reverse_cons, firstLineOf, loop]
      cases ht : t.asToken? with
      | some a =>
        obtain rfl := eq_token_of_asToken? ht
        rw [turn_concat_token]
      | none =>
        have hlighter := weights_children_lt t
        rw [weights] at h
        rw [turn_concat _ ht]
        have hnext := ih (t.children ++ pending) (by rw [weights_append]; omega)
        rwa [List.reverse_append] at hnext

/-- The loop ends within as many turns as there are trees in the tree, and one more. It gives the
line of the first token, or zero if there is none. -/
theorem firstLine_depth_first (t : Tree) :
    (∀ turns, t.weight < turns → loop turns [t] = some t.firstLine) ∧
    t.firstLine = (t.firstToken?.map Token.line).getD (.int 0) ∧
    (t.firstToken? = none ∧ t.firstLine = .int 0 ∧ (∀ path a, t.at? path ≠ some (token a)) ∨
      ∃ path a, t.firstToken? = some a ∧ t.firstLine = a.line ∧ t.IsFirst path a) := by
  have hline : t.firstLine = (t.firstToken?.map Token.line).getD (.int 0) := by
    rw [firstToken?_eq_head?, firstLine_eq]
  refine ⟨fun turns h => loop_eq [t] (by simpa [weights] using h), hline, ?_⟩
  cases h : t.firstToken? with
  | none =>
    rw [h] at hline
    exact .inl ⟨rfl, hline, firstToken?_eq_none h⟩
  | some a =>
    rw [h] at hline
    obtain ⟨path, hpath⟩ := exists_isFirst h
    exact .inr ⟨path, a, rfl, hline, hpath⟩

end LoxLang.Tree
