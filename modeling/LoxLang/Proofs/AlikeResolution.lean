import LoxLang.Proofs.Depths

/-!
# Alike programs are resolved alike

A program is resolved beside one that is like it. The scopes that are open in both bind the same
names, if they are marked then changed ones (`FramesLike`). A change may send a name that the
program uses only to itself or to a name that it does not use (`Change.Avoids`), so that a use is
found in the same scope after the change (`FramesLike.depthOf?_eq`). Where the first walk gives its
tree back as it was, so does the second one, and reports no more (`mirrors_walks`). A resolved
program is resolved to itself, hence so is each program that is like it (`Passes.alike`).
-/

namespace LoxLang

/-- A name that is known is changed to itself or to one that is not known, and two changes lead
back. -/
structure Change.Avoids (ρ : Change) (known : Name → Prop) : Prop where
  congr : ∀ {a b : Name}, (a == b) = true → known a → known b
  fresh : ∀ {a : Name}, known a → ρ.name a = a ∨ ¬known (ρ.name a)
  back : ∀ a : Name, ρ.name (ρ.name a) = a
  this : known (.ofText "this")
  super : known (.ofText "super")

/-- All tokens in a tree are texts that are known as names. -/
def Tree.Uses (known : Name → Prop) (t : Tree) : Prop :=
  ∀ a ∈ t.tokens, ∃ s, a.lexeme = .str s ∧ known (.ofText s)

theorem Tree.Uses.child {known : Name → Prop} {t u : Tree} (h : t.Uses known) (i : Nat)
    (hu : t.children[i]? = some u) : u.Uses known :=
  fun a ha => h a (Tree.mem_tokens_of_child hu ha)

theorem Tree.Uses.items {known : Name → Prop} {items : List Tree}
    (h : (Tree.list items).Uses known) : ∀ t ∈ items, t.Uses known := by
  intro t ht
  obtain ⟨i, hi⟩ := List.getElem?_of_mem ht
  exact h.child i hi

theorem Token.name_of_lexeme {a : Token} {s : String} (h : a.lexeme = .str s) :
    a.name = .ok (.ofText s) := by
  unfold name
  rw [h]
  rfl

namespace Resolver

variable {ρ : Change} {known : Name → Prop} {β : List Bool} {marked : Bool}

/-! ## Open scopes -/

/-- The scopes bind the same names, if they are marked then changed ones. -/
structure FrameLike (ρ : Change) (known : Name → Prop) (marked : Bool) (f f' : Frame) : Prop where
  find? : ∀ key, f'.find? (ρ.rename marked key) = f.find? key
  known : ∀ key, f.binds key = true → known key

/-- The scopes that are open, with their marks. The globals have no scope here. -/
inductive FramesLike (ρ : Change) (known : Name → Prop) :
    List Bool → List Frame → List Frame → Prop where
  | globals : FramesLike ρ known [false] [] []
  | cons {marked : Bool} {β : List Bool} {f f' : Frame} {S S' : List Frame} :
      FrameLike ρ known marked f f' → FramesLike ρ known β S S' →
      FramesLike ρ known (marked :: β) (f :: S) (f' :: S')

section Frames

variable {f f' : Frame} {S S' : List Frame} {key : Name}

theorem frameLike_empty (marked : Bool) : FrameLike ρ known marked .empty .empty :=
  ⟨fun _ => rfl, nofun⟩

theorem frameLike_single (hρ : ρ.Avoids known) {word : String} (hk : known (.ofText word)) :
    FrameLike ρ known false (.single (.ofText word) true) (.single (.ofText word) true) := by
  refine ⟨fun _ => rfl, fun key hb => ?_⟩
  rw [Bindings.binds, Bindings.find?_single] at hb
  split at hb
  · next he => exact hρ.congr he hk
  · cases hb

theorem FrameLike.insert (h : FrameLike ρ known marked f f') (hρ : ρ.Avoids known)
    (hk : known key) (ready : Bool) :
    FrameLike ρ known marked (f.insert key ready) (f'.insert (ρ.rename marked key) ready) where
  find? other := by
    rw [Bindings.find?_insert, Bindings.find?_insert, ρ.rename_beq, h.find?]
  known other hb := by
    rw [Bindings.binds_insert, Bool.or_eq_true] at hb
    exact hb.elim (fun he => hρ.congr he hk) (h.known other)

/-- A name that is found after a change was there before, whatever mark it was changed for. -/
theorem FrameLike.find?_of_changed (h : FrameLike ρ known marked f f') (hρ : ρ.Avoids known)
    (hk : known key) {mark ready : Bool} (hf : f'.find? (ρ.rename mark key) = some ready) :
    f.find? key = some ready := by
  have hsame {key : Name} (hb : f.find? (ρ.name key) = some ready) (hk : known key) :
      f.find? key = some ready := by
    rcases hρ.fresh hk with he | hn
    · rwa [he] at hb
    · exact absurd (h.known _ (by rw [Bindings.binds, hb]; rfl)) hn
  cases marked with
  | false =>
    have hb := h.find? (ρ.rename mark key)
    rw [Change.rename_false, hf] at hb
    cases mark with
    | false => exact hb.symm
    | true => exact hsame hb.symm hk
  | true =>
    cases mark with
    | false =>
      have hb := h.find? (ρ.name key)
      rw [Change.rename, if_pos rfl, hρ.back] at hb
      exact hsame (hb.symm.trans hf) hk
    | true => exact (h.find? key).symm.trans hf

/-- A use is found in the same scope after the change. -/
theorem FramesLike.depthOf?_eq (h : FramesLike ρ known β S S') (hρ : ρ.Avoids known)
    (hk : known key) :
    depthOf? S' (ρ.rename (markAt β (depthOf? S key)) key) = depthOf? S key := by
  induction h with
  | globals => rfl
  | @cons marked β f f' S S' hf _ ih =>
    rw [depthOf?_cons, depthOf?_cons]
    cases hb : f.binds key with
    | true =>
      have hb' : f'.binds (ρ.rename marked key) = true := by
        rw [Bindings.binds, hf.find?]
        exact hb
      simp only [if_true]
      exact if_pos hb'
    | false =>
      have hmark : markAt (marked :: β) ((depthOf? S key).map (· + 1)) =
          markAt β (depthOf? S key) := by
        cases depthOf? S key <;> rfl
      simp only [Bool.false_eq_true, if_false, hmark]
      rw [if_neg, ih]
      intro hb'
      obtain ⟨ready, hr⟩ := Option.isSome_iff_exists.1 hb'
      rw [Bindings.binds, hf.find?_of_changed hρ hk hr] at hb
      cases hb

end Frames

/-! ## Walks beside each other -/

/-- The kinds of function and class that a walk is in. -/
abbrev Kinds := InFunction × InClass

/-- The walks are in alike scopes and in the same kinds, and the second one has reported no more. -/
structure StateLike (ρ : Change) (known : Name → Prop) (β : List Bool) (k : Kinds) (s s' : State) :
    Prop where
  scopes : FramesLike ρ known β s.scopes s'.scopes
  kinds : (s.inFunction, s.inClass) = k
  kinds' : (s'.inFunction, s'.inClass) = k
  problems : s'.problems.size ≤ s.problems.size

/-- Where the first walk gives a result, so does the second one. -/
def Mirrors {α α' : Type} (ρ : Change) (known : Name → Prop) (x : Resolve α) (x' : Resolve α')
    (s s' : State) (β : List Bool) (k : Kinds) (Q : α → α' → Prop) : Prop :=
  ∀ a s₁, x s = .ok a s₁ → ∃ a' s₁', x' s' = .ok a' s₁' ∧ StateLike ρ known β k s₁ s₁' ∧ Q a a'

/-- If the first walk has given its tree back, so has the second one. -/
def Back (t t' : Tree) (u u' : Tree) : Prop := u = t → u' = t'

section Mirrors

variable {α α' γ γ' : Type} {x : Resolve α} {x' : Resolve α'} {s s' : State} {k k₁ : Kinds}
  {β₁ : List Bool} {P : α → α' → Prop} {Q : γ → γ' → Prop} {f : α → Resolve γ}
  {f' : α' → Resolve γ'}

theorem Mirrors.pure {a : α} {a' : α'} (hs : StateLike ρ known β k s s') (h : P a a') :
    Mirrors ρ known (pure a) (pure a') s s' β k P := by
  rintro _ _ ⟨⟩
  exact ⟨a', s', rfl, hs, h⟩

/-- Two steps are mirrored if each is. -/
theorem Mirrors.bind (hx : Mirrors ρ known x x' s s' β₁ k₁ P)
    (hf : ∀ a a' s₁ s₁', StateLike ρ known β₁ k₁ s₁ s₁' → P a a' →
      Mirrors ρ known (f a) (f' a') s₁ s₁' β k Q) :
    Mirrors ρ known (x >>= f) (x' >>= f') s s' β k Q := by
  intro c s₂ h
  obtain ⟨a, s₁, hxs, h⟩ := bind_eq_ok.1 h
  obtain ⟨a', s₁', hxs', hs₁, hp⟩ := hx a s₁ hxs
  obtain ⟨c', s₂', hf', hs₂, hq⟩ := hf a a' s₁ s₁' hs₁ hp c s₂ h
  exact ⟨c', s₂', (bind_of_ok hxs').trans hf', hs₂, hq⟩

theorem Mirrors.imp {P' : α → α' → Prop} (hx : Mirrors ρ known x x' s s' β k P)
    (hp : ∀ a a', P a a' → P' a a') : Mirrors ρ known x x' s s' β k P' := by
  intro a s₁ h
  obtain ⟨a', s₁', hx', hs, h⟩ := hx a s₁ h
  exact ⟨a', s₁', hx', hs, hp a a' h⟩

theorem Mirrors.throw {e : Stop} : Mirrors ρ known (throw e) x' s s' β k P := nofun

theorem Mirrors.look {f : State → Resolve γ} {f' : State → Resolve γ'}
    (h : Mirrors ρ known (f s) (f' s') s s' β k Q) :
    Mirrors ρ known (get >>= f) (get >>= f') s s' β k Q :=
  h

theorem Mirrors.lift {r : Except Fault α} {r' : Except Fault α'}
    (h : ∀ a, r = .ok a → ∃ a', r' = .ok a' ∧ Mirrors ρ known (f a) (f' a') s s' β k Q) :
    Mirrors ρ known (lift r >>= f) (lift r' >>= f') s s' β k Q := by
  cases r with
  | ok a =>
    obtain ⟨a', rfl, hf⟩ := h a rfl
    exact hf
  | error e => exact nofun

theorem mirrors_modify {g g' : State → State} (h : StateLike ρ known β k (g s) (g' s')) :
    Mirrors ρ known (modify g) (modify g') s s' β k fun _ _ => True := by
  rintro _ _ ⟨⟩
  exact ⟨⟨⟩, g' s', rfl, h, trivial⟩

end Mirrors

/-! ## Steps -/

section Steps

variable {s s' : State} {k : Kinds} {name name' : Tree} {t t' : Tree} {a' : Token} {role : Role}
  {walk : Tree → Resolve Tree} {ts ts' : List Tree}

/-- The names in slots that are alike. -/
theorem NameLike.exists_key (h : NameLike ρ marked t t') (ht : t.Uses known) {key : Name}
    (hkey : t.asName = .ok key) : known key ∧ t'.asName = .ok (ρ.rename marked key) := by
  have hname := h.name_eq
  obtain ⟨a, a', rfl, rfl, -, -⟩ := h
  obtain ⟨word, hword, hknown⟩ := ht a (by simp [Tree.tokens])
  obtain rfl := Except.ok.inj ((Token.name_of_lexeme hword).symm.trans hkey)
  refine ⟨hknown, ?_⟩
  rw [hname, hkey]
  rfl

theorem NameLike.exists_token (h : NameLike ρ marked t t') : ∃ a', t'.asToken = .ok a' := by
  obtain ⟨a, a', rfl, rfl, -, -⟩ := h
  exact ⟨a', rfl⟩

theorem TokenLike.exists_token (h : TokenLike ρ t t') : ∃ a', t'.asToken = .ok a' := by
  obtain ⟨a, a', rfl, rfl, -⟩ := h
  exact ⟨a', rfl⟩

theorem mirrors_report (ht : t'.asToken = .ok a') (problem : Problem)
    (hs : StateLike ρ known β k s s') :
    Mirrors ρ known (report t problem) (report t' problem) s s' β k fun _ _ => True := by
  refine .lift fun a _ => ⟨a', ht, mirrors_modify ⟨hs.scopes, hs.kinds, hs.kinds', ?_⟩⟩
  simpa using hs.problems

theorem mirrors_silent (problem : Problem) (hs : StateLike ρ known β k s s') :
    Mirrors ρ known (report t problem) (pure ()) s s' β k fun _ _ => True := by
  intro _ s₁ h
  obtain ⟨a, s₂, hl, hm⟩ := bind_eq_ok.1 h
  obtain ⟨-, rfl⟩ := lift_eq_ok.1 hl
  cases hm
  refine ⟨(), s', rfl, ⟨hs.scopes, hs.kinds, hs.kinds', ?_⟩, trivial⟩
  exact Nat.le_trans hs.problems (by simp)

/-- The second walk reports only what the first one reports. -/
theorem mirrors_reportIf {c c' : Prop} [Decidable c] [Decidable c'] (ht : t'.asToken = .ok a')
    (hc : c' → c) (problem : Problem) (hs : StateLike ρ known β k s s') :
    Mirrors ρ known (if c then report t problem else pure ())
      (if c' then report t' problem else pure ()) s s' β k fun _ _ => True := by
  by_cases h' : c'
  · rw [if_pos h', if_pos (hc h')]
    exact mirrors_report ht problem hs
  · rw [if_neg h']
    split
    · exact mirrors_silent problem hs
    · exact .pure hs trivial

/-- Like names are declared alike. -/
theorem mirrors_declare (hρ : ρ.Avoids known) (hn : NameLike ρ (β.headD false) name name')
    (hk : name.Uses known) (ready : Bool) (hs : StateLike ρ known β k s s') :
    Mirrors ρ known (declare name ready) (declare name' ready) s s' β k fun _ _ => True := by
  have hscopes := hs.scopes
  unfold declare
  refine .look ?_
  generalize s.scopes = S at hscopes ⊢
  generalize s'.scopes = S' at hscopes ⊢
  cases hscopes with
  | globals => exact .pure hs trivial
  | cons hf hrest =>
    refine .lift fun key hkey => ?_
    obtain ⟨hknown, hkey'⟩ := NameLike.exists_key hn hk hkey
    exact ⟨_, hkey', mirrors_modify
      ⟨.cons (hf.insert hρ hknown ready) hrest, hs.kinds, hs.kinds', hs.problems⟩⟩

/-- At the top level no scope is open. -/
theorem FramesLike.eq_nil {S S' : List Frame} (h : FramesLike ρ known [marked] S S') : S = [] := by
  cases h with
  | globals => rfl
  | cons _ hnone => cases hnone

theorem FramesLike.isEmpty_eq {S S' : List Frame} (h : FramesLike ρ known β S S') :
    S'.isEmpty = S.isEmpty := by
  cases h <;> rfl

/-- Like names are found at the same depth. -/
theorem mirrors_locate (hρ : ρ.Avoids known) {depth : Option Nat}
    (hn : NameLike ρ (markAt β depth) name name') (hk : name.Uses known)
    (hs : StateLike ρ known β k s s') :
    Mirrors ρ known (locate name) (locate name') s s' β k fun d d' => d = depth → d' = depth := by
  unfold locate
  refine .look ?_
  dsimp only
  rw [hs.scopes.isEmpty_eq]
  split
  · exact .pure hs id
  · refine .lift fun key hkey => ?_
    obtain ⟨hknown, hkey'⟩ := NameLike.exists_key hn hk hkey
    refine ⟨_, hkey', ?_⟩
    have hsame : depthOf? s.scopes key = depth →
        depthOf? s'.scopes (ρ.rename (markAt β depth) key) = depth := by
      rintro rfl
      exact hs.scopes.depthOf?_eq hρ hknown
    have hlike (n n' : Nat) : StateLike ρ known β k { s with found := n } { s' with found := n' } :=
      ⟨hs.scopes, hs.kinds, hs.kinds', hs.problems⟩
    generalize depthOf? s.scopes key = d at hsame
    generalize depthOf? s'.scopes (ρ.rename (markAt β depth) key) = d' at hsame
    cases d <;> cases d' <;>
      · rintro _ _ ⟨⟩
        exact ⟨_, _, rfl, hlike _ _, hsame⟩

/-- Like names are checked alike. -/
theorem mirrors_checkReady (hρ : ρ.Avoids known) (hn : NameLike ρ marked name name')
    (hk : name.Uses known) (hs : StateLike ρ known β k s s') :
    Mirrors ρ known (checkReady name) (checkReady name') s s' β k fun _ _ => True := by
  have hscopes := hs.scopes
  unfold checkReady
  refine .look ?_
  generalize s.scopes = S at hscopes ⊢
  generalize s'.scopes = S' at hscopes ⊢
  cases hscopes with
  | globals => exact .pure hs trivial
  | cons hf _ =>
    refine .lift fun key hkey => ?_
    obtain ⟨hknown, hkey'⟩ := NameLike.exists_key hn hk hkey
    obtain ⟨a, a', rfl, rfl, -, -⟩ := hn
    exact ⟨_, hkey', mirrors_reportIf rfl (hf.find?_of_changed hρ hknown) _ hs⟩

theorem mirrors_openScope {f f' : Frame} (hf : FrameLike ρ known marked f f')
    (hs : StateLike ρ known β k s s') :
    Mirrors ρ known (openScope f) (openScope f') s s' (marked :: β) k fun _ _ => True :=
  mirrors_modify ⟨.cons hf hs.scopes, hs.kinds, hs.kinds', hs.problems⟩

theorem StateLike.ne_nil (hs : StateLike ρ known β k s s') : β ≠ [] := by
  have hscopes := hs.scopes
  rintro rfl
  cases hscopes

/-- A scope is closed alike. -/
theorem mirrors_closeScope (hβ : β ≠ []) (hs : StateLike ρ known (marked :: β) k s s') :
    Mirrors ρ known closeScope closeScope s s' β k fun _ _ => True := by
  refine mirrors_modify ⟨?_, hs.kinds, hs.kinds', hs.problems⟩
  have hscopes := hs.scopes
  generalize s.scopes = S at hscopes ⊢
  generalize s'.scopes = S' at hscopes ⊢
  cases hscopes with
  | globals => exact absurd rfl hβ
  | cons _ hrest => exact hrest

theorem mirrors_inClass (c : InClass) (hs : StateLike ρ known β k s s') :
    Mirrors ρ known (modify fun s => { s with inClass := c })
      (modify fun s => { s with inClass := c }) s s' β (k.1, c) fun _ _ => True := by
  refine mirrors_modify ⟨hs.scopes, ?_, ?_, hs.problems⟩
  · exact congrArg (·.1, c) hs.kinds
  · exact congrArg (·.1, c) hs.kinds'

/-- A `super` is checked alike. -/
theorem mirrors_checkSuper (ht : t'.asToken = .ok a') (hs : StateLike ρ known β k s s') :
    Mirrors ρ known (checkSuper t) (checkSuper t') s s' β k fun _ _ => True := by
  have hk : s'.inClass = s.inClass := congrArg Prod.snd (hs.kinds'.trans hs.kinds.symm)
  unfold checkSuper
  refine .look ?_
  rw [hk]
  cases s.inClass with
  | none | root => exact mirrors_report ht _ hs
  | subclass => exact .pure hs trivial

/-- A `return` is checked alike. -/
theorem mirrors_checkReturn {value value' : Tree} (ht : t'.asToken = .ok a')
    (hv : value'.isNull = value.isNull) (hs : StateLike ρ known β k s s') :
    Mirrors ρ known (checkReturn t value) (checkReturn t' value') s s' β k fun _ _ => True := by
  have hk : s'.inFunction = s.inFunction := congrArg Prod.fst (hs.kinds'.trans hs.kinds.symm)
  unfold checkReturn
  refine .look ?_
  rw [hk, hv]
  cases s.inFunction with
  | none => exact mirrors_report ht _ hs
  | initializer => exact mirrors_reportIf ht id _ hs
  | function | method => exact .pure hs trivial

/-- Walk with another kind of function around, and go back to the kind before. -/
theorem mirrors_within {x x' : Resolve Tree} {kind : InFunction}
    (hx : ∀ s s', StateLike ρ known β (kind, k.2) s s' →
      Mirrors ρ known x x' s s' β (kind, k.2) (Back t t')) (hs : StateLike ρ known β k s s') :
    Mirrors ρ known (within kind x) (within kind x') s s' β k (Back t t') := by
  unfold within
  refine .look ?_
  have hset (c : InFunction) {k : Kinds} {s s' : State} (hs : StateLike ρ known β k s s') :
      StateLike ρ known β (c, k.2) { s with inFunction := c } { s' with inFunction := c } :=
    ⟨hs.scopes, congrArg (c, ·.2) hs.kinds, congrArg (c, ·.2) hs.kinds', hs.problems⟩
  refine Mirrors.bind (mirrors_modify (hset kind hs)) fun _ _ s₁ s₁' hs₁ _ => ?_
  refine (hx s₁ s₁' hs₁).bind fun u u' s₂ s₂' hs₂ hu => ?_
  have hk : s.inFunction = k.1 := congrArg Prod.fst hs.kinds
  have hk' : s'.inFunction = k.1 := congrArg Prod.fst hs.kinds'
  rw [hk, hk']
  exact Mirrors.bind (mirrors_modify (hset k.1 hs₂)) fun _ _ _ _ hs₃ _ => .pure hs₃ hu

/-! ## Sequences -/

/-- The walk over the first tree is mirrored by the walk over the second one. -/
def WalksAlike (ρ : Change) (known : Name → Prop) (role : Role) (walk : Tree → Resolve Tree) :
    Prop :=
  ∀ ⦃β : List Bool⦄ ⦃k : Kinds⦄ ⦃s s' : State⦄ ⦃t t' : Tree⦄, StateLike ρ known β k s s' →
    TreeLike ρ role β t t' → t.Uses known →
    Mirrors ρ known (walk t) (walk t') s s' β k (Back t t')

theorem walksAlike_throw {stop : Stop} : WalksAlike ρ known role fun _ => throw stop := by
  intro β k s s' t t' _ _ _
  exact .throw

/-- Lists of like trees are walked alike. -/
theorem mirrors_eachFrom (h : WalksAlike ρ known role walk)
    (hts : List.Forall₂ (TreeLike ρ role β) ts ts') :
    (∀ t ∈ ts, t.Uses known) → ∀ {s s' : State} (done done' : List Tree),
      StateLike ρ known β k s s' →
      Mirrors ρ known (eachFrom walk done ts) (eachFrom walk done' ts') s s' β k fun out out' =>
        ∃ us us', out = done.reverse ++ us ∧ out' = done'.reverse ++ us' ∧
          (us = ts → us' = ts') := by
  induction hts with
  | nil => exact fun _ _ _ done done' hs => .pure hs ⟨[], [], by simp, by simp, fun _ => rfl⟩
  | @cons t t' ts ts' ht _ ih =>
    intro hk s s' done done' hs
    obtain ⟨hkt, hrest⟩ := List.forall_mem_cons.1 hk
    refine (h hs ht hkt).bind fun u u' s₁ s₁' hs₁ hu => ?_
    refine (ih hrest (u :: done) (u' :: done') hs₁).imp ?_
    rintro _ _ ⟨us, us', rfl, rfl, hus⟩
    refine ⟨u :: us, u' :: us', by simp, by simp, ?_⟩
    rintro ⟨⟩
    rw [hu rfl, hus rfl]

/-- The items of like lists are walked alike. -/
theorem WalksAlike.eachOf {item : Role} (h : WalksAlike ρ known item walk)
    (hr : role.item? = some item) : WalksAlike ρ known role (eachOf walk) := by
  intro β k s s' t t' hs ht hk
  obtain ⟨ts, ts', rfl, rfl, hts⟩ := ht.items hr
  refine (mirrors_eachFrom h hts hk.items [] [] hs).bind fun out out' s₁ s₁' hs₁ hout => ?_
  obtain ⟨us, us', rfl, rfl, hus⟩ := hout
  refine .pure hs₁ ?_
  rintro ⟨⟩
  rw [hus rfl]
  rfl

/-! ## Expressions -/

/-- Like expressions are walked alike. -/
theorem walksAlike_expression (hρ : ρ.Avoids known) (room : Nat) :
    WalksAlike ρ known .expression (expression room) := by
  induction room with
  | zero => exact walksAlike_throw
  | succ room ih =>
    intro β k s s' t t' hs ht hk
    cases ht with
    | literal => exact .pure hs id
    | ident hn =>
      refine (mirrors_checkReady hρ hn (hk.child 0 rfl) hs).bind fun _ _ s₁ s₁' hs₁ _ => ?_
      refine (mirrors_locate hρ hn (hk.child 0 rfl) hs₁).bind fun d d' s₂ s₂' hs₂ hd => ?_
      refine .pure hs₂ ?_
      rintro ⟨⟩
      rw [hd rfl]
    | assign hn hv =>
      refine (ih hs hv (hk.child 1 rfl)).bind fun u u' s₁ s₁' hs₁ hu => ?_
      refine (mirrors_locate hρ hn (hk.child 0 rfl) hs₁).bind fun d d' s₂ s₂' hs₂ hd => ?_
      refine .pure hs₂ ?_
      rintro ⟨⟩
      rw [hu rfl, hd rfl]
    | thisRef hn =>
      have hc : s'.inClass = s.inClass := congrArg Prod.snd (hs.kinds'.trans hs.kinds.symm)
      obtain ⟨a', ha'⟩ := NameLike.exists_token hn
      refine .look ?_
      rw [hc]
      split
      · refine (mirrors_report ha' _ hs).bind fun _ _ s₁ s₁' hs₁ _ => .pure hs₁ ?_
        rintro ⟨⟩
        rfl
      · refine (mirrors_locate hρ hn (hk.child 0 rfl) hs).bind fun d d' s₁ s₁' hs₁ hd => ?_
        refine .pure hs₁ ?_
        rintro ⟨⟩
        rw [hd rfl]
    | superRef hn _ =>
      obtain ⟨a', ha'⟩ := NameLike.exists_token hn
      refine (mirrors_checkSuper ha' hs).bind fun _ _ s₁ s₁' hs₁ _ => ?_
      refine (mirrors_locate hρ hn (hk.child 0 rfl) hs₁).bind fun d d' s₂ s₂' hs₂ hd => ?_
      refine .pure hs₂ ?_
      rintro ⟨⟩
      rw [hd rfl]
    | grouping he | getField he _ =>
      refine (ih hs he (hk.child 0 rfl)).bind fun u u' s₁ s₁' hs₁ hu => .pure hs₁ ?_
      rintro ⟨⟩
      rw [hu rfl]
    | unary _ he =>
      refine (ih hs he (hk.child 1 rfl)).bind fun u u' s₁ s₁' hs₁ hu => .pure hs₁ ?_
      rintro ⟨⟩
      rw [hu rfl]
    | binary hl _ hr | logical hl _ hr =>
      refine (ih hs hl (hk.child 0 rfl)).bind fun u u' s₁ s₁' hs₁ hu => ?_
      refine (ih hs₁ hr (hk.child 2 rfl)).bind fun v v' s₂ s₂' hs₂ hv => .pure hs₂ ?_
      rintro ⟨⟩
      rw [hu rfl, hv rfl]
    | setField ho _ hv =>
      refine (ih hs hv (hk.child 2 rfl)).bind fun v v' s₁ s₁' hs₁ hv => ?_
      refine (ih hs₁ ho (hk.child 0 rfl)).bind fun u u' s₂ s₂' hs₂ hu => .pure hs₂ ?_
      rintro ⟨⟩
      rw [hu rfl, hv rfl]
    | call hc _ ha =>
      refine (ih hs hc (hk.child 0 rfl)).bind fun u u' s₁ s₁' hs₁ hu => ?_
      refine (ih.eachOf rfl hs₁ ha (hk.child 2 rfl)).bind fun v v' s₂ s₂' hs₂ hv => .pure hs₂ ?_
      rintro ⟨⟩
      rw [hu rfl, hv rfl]

/-! ## Functions and classes -/

/-- Like parameters are declared alike. -/
theorem mirrors_declareAll (hρ : ρ.Avoids known)
    (hts : List.Forall₂ (NameLike ρ (β.headD false)) ts ts') :
    (∀ t ∈ ts, t.Uses known) → ∀ {s s' : State}, StateLike ρ known β k s s' →
      Mirrors ρ known (declareAll ts) (declareAll ts') s s' β k fun _ _ => True := by
  induction hts with
  | nil => exact fun _ _ _ hs => .pure hs trivial
  | cons ht _ ih =>
    intro hk s s' hs
    obtain ⟨hkt, hrest⟩ := List.forall_mem_cons.1 hk
    refine (mirrors_declare hρ ht hkt false hs).bind fun _ _ s₁ s₁' hs₁ _ => ?_
    exact (mirrors_declare hρ ht hkt true hs₁).bind fun _ _ s₂ s₂' hs₂ _ => ih hrest hs₂

/-- Like functions are walked alike. -/
theorem WalksAlike.routine {body : Tree → Resolve Tree} (hρ : ρ.Avoids known)
    (h : WalksAlike ρ known .body body) (kind : InFunction) :
    WalksAlike ρ known .method (routine body kind) := by
  intro β k s s' t t' hs ht hk
  cases ht with
  | @method _ marked _ _ _ _ params params' _ hparams hbody =>
    have hnames := Tree.Uses.items (hk.child 1 rfl)
    refine mirrors_within (fun s s' hs => ?_) hs
    have hβ := hs.ne_nil
    refine (mirrors_openScope (frameLike_empty marked) hs).bind fun _ _ s₁ s₁' hs₁ _ => ?_
    refine .lift fun slots hslots => ⟨_, rfl, ?_⟩
    cases hslots
    refine .lift fun names hitems => ⟨_, rfl, ?_⟩
    cases hitems
    refine (mirrors_declareAll (β := marked :: β) hρ hparams hnames hs₁).bind
      fun _ _ s₂ s₂' hs₂ _ => ?_
    refine (h hs₂ hbody (hk.child 2 rfl)).bind fun u u' s₃ s₃' hs₃ hu => ?_
    refine (mirrors_closeScope hβ hs₃).bind fun _ _ s₄ s₄' hs₄ _ => .pure hs₄ ?_
    rintro ⟨⟩
    rw [hu rfl]

/-- Like methods are walked alike. -/
theorem WalksAlike.method {routine : InFunction → Tree → Resolve Tree}
    (h : ∀ kind, WalksAlike ρ known .method (routine kind)) :
    WalksAlike ρ known .method (method routine) := by
  intro β k s s' t t' hs ht hk
  have hlike := ht
  cases ht with
  | method hname _ _ =>
    obtain ⟨a, a', rfl, rfl, -, hl, -⟩ := hname
    refine .lift fun token htoken => ⟨a', rfl, ?_⟩
    cases htoken
    rw [hl]
    exact h _ hs hlike hk

/-- A class that is no subclass of itself is none after the change. -/
theorem lexeme_beq_of_changed (hρ : ρ.Avoids known) {parent parent' name name' : Token}
    (hp : NameLike ρ marked (.token parent) (.token parent'))
    (hn : TokenLike ρ (.token name) (.token name')) (hk : (Tree.token parent).Uses known)
    (hk' : (Tree.token name).Uses known) (h : (parent'.lexeme == name'.lexeme) = true) :
    (parent.lexeme == name.lexeme) = true := by
  obtain ⟨_, _, ⟨⟩, ⟨⟩, hname, -⟩ := hp
  obtain ⟨_, _, ⟨⟩, ⟨⟩, -, hl, -⟩ := hn
  obtain ⟨p, hpl, hpk⟩ := hk parent (by simp [Tree.tokens])
  obtain ⟨n, hnl, hnk⟩ := hk' name (by simp [Tree.tokens])
  rw [Token.name_of_lexeme hpl] at hname
  have hlexeme : parent'.lexeme = .scalar (ρ.rename marked (.ofText p)).datum := by
    unfold Token.name at hname
    split at hname
    · next hx => rw [hx, ← congrArg Name.datum (Except.ok.inj hname)]
    · cases hname
  rw [hlexeme, hl, hnl] at h
  rw [hpl, hnl]
  change (ρ.rename marked (.ofText p) == Name.ofText n) = true at h
  show (Name.ofText p == Name.ofText n) = true
  cases marked with
  | false => exact h
  | true =>
    rcases hρ.fresh hpk with he | hfresh
    · rwa [Change.rename, if_pos rfl, he] at h
    · exact absurd (hρ.congr (PartialEquivBEq.symm h) hnk) hfresh

/-- Like superclasses are walked alike. -/
theorem mirrors_superclass (hρ : ρ.Avoids known) (h : WalksAlike ρ known .expression walk)
    {name name' parent parent' : Tree} {depth : Option Nat} (hn : TokenLike ρ name name')
    (hp : TreeLike ρ .expression β (.ident parent depth) (.ident parent' depth))
    (hkn : name.Uses known) (hkp : (Tree.ident parent depth).Uses known)
    (hs : StateLike ρ known β k s s') :
    Mirrors ρ known (superclass walk name (.ident parent depth))
      (superclass walk name' (.ident parent' depth)) s s' (false :: β) (k.1, .subclass)
      (Back (.ident parent depth) (.ident parent' depth)) := by
  have hrest {s s' : State} (hs : StateLike ρ known β k s s') :
      Mirrors ρ known
        (do modify fun s => { s with inClass := .subclass }
            let parent ← walk (.ident parent depth)
            openScope (.single (.ofText "super") true)
            return parent)
        (do modify fun s => { s with inClass := .subclass }
            let parent ← walk (.ident parent' depth)
            openScope (.single (.ofText "super") true)
            return parent) s s' (false :: β) (k.1, .subclass)
        (Back (.ident parent depth) (.ident parent' depth)) := by
    refine (mirrors_inClass .subclass hs).bind fun _ _ s₁ s₁' hs₁ _ => ?_
    refine (h hs₁ hp hkp).bind fun u u' s₂ s₂' hs₂ hu => ?_
    refine (mirrors_openScope (frameLike_single hρ hρ.super) hs₂).bind fun _ _ _ _ hs₃ _ => ?_
    exact .pure hs₃ hu
  have hname : NameLike ρ (markAt β depth) parent parent' := by
    cases hp with
    | ident hname => exact hname
  have hkp' := hkp.child 0 rfl
  have hsame {a a' b b' : Token} (ha : parent = .token a) (ha' : parent' = .token a')
      (hb : name = .token b) (hb' : name' = .token b') (he : (a'.lexeme == b'.lexeme) = true) :
      (a.lexeme == b.lexeme) = true := by
    subst ha ha' hb hb'
    exact lexeme_beq_of_changed hρ hname hn hkp' hkn he
  obtain ⟨a, a', rfl, rfl, -, -⟩ := hname
  obtain ⟨b, b', rfl, rfl, -⟩ := hn
  refine .lift fun token htoken => ⟨a', rfl, ?_⟩
  cases htoken
  refine .lift fun token htoken => ⟨b', rfl, ?_⟩
  cases htoken
  by_cases hc : (a'.lexeme == b'.lexeme) = true
  · rw [if_pos hc, if_pos (hsame rfl rfl rfl rfl hc)]
    refine .lift fun slot hslot => ⟨.token a', rfl, ?_⟩
    exact (mirrors_report rfl _ hs).bind fun _ _ s₁ s₁' hs₁ _ => hrest hs₁
  · rw [if_neg hc]
    split
    · have hsilent := (mirrors_silent (t := .token a) .ownSuperclass hs).bind
        fun _ _ s₁ s₁' hs₁ _ => hrest hs₁
      exact hsilent
    · exact hrest hs

/-- Like classes are walked alike. -/
theorem mirrors_classBody {method : Tree → Resolve Tree} (hρ : ρ.Avoids known)
    (h : WalksAlike ρ known .expression walk) (hm : WalksAlike ρ known .method method)
    {name name' parent parent' methods methods' : Tree}
    (ht : TreeLike ρ .statement β (.classDecl name parent methods)
      (.classDecl name' parent' methods')) (hk : (Tree.classDecl name parent methods).Uses known)
    (hs : StateLike ρ known β k s s') :
    Mirrors ρ known (classBody walk method name parent methods)
      (classBody walk method name' parent' methods') s s' β k
      (Back (.classDecl name parent methods) (.classDecl name' parent' methods')) := by
  have hβ := hs.ne_nil
  have hc : s.inClass = k.2 := congrArg Prod.snd hs.kinds
  have hc' : s'.inClass = k.2 := congrArg Prod.snd hs.kinds'
  have hdeclare (hn : NameLike ρ (β.headD false) name name') {f f' : Resolve Tree}
      (hf : ∀ s s', StateLike ρ known β (k.1, .root) s s' → Mirrors ρ known f f' s s' β k
        (Back (.classDecl name parent methods) (.classDecl name' parent' methods'))) :
      Mirrors ρ known
        (do modify fun s => { s with inClass := .root }
            declare name false
            declare name true
            f)
        (do modify fun s => { s with inClass := .root }
            declare name' false
            declare name' true
            f') s s' β k
        (Back (.classDecl name parent methods) (.classDecl name' parent' methods')) := by
    refine (mirrors_inClass .root hs).bind fun _ _ s₁ s₁' hs₁ _ => ?_
    refine (mirrors_declare hρ hn (hk.child 0 rfl) false hs₁).bind fun _ _ s₂ s₂' hs₂ _ => ?_
    refine (mirrors_declare hρ hn (hk.child 0 rfl) true hs₂).bind fun _ _ s₃ s₃' hs₃ _ => ?_
    exact hf s₃ s₃' hs₃
  unfold classBody
  refine .look ?_
  rw [hc, hc']
  cases ht with
  | rootClass _ hn hmethods =>
    refine hdeclare hn fun s s' hs => ?_
    refine Mirrors.bind (.pure hs (P := Back .null .null) id) fun _ _ s s' hs hparent => ?_
    refine (mirrors_openScope (frameLike_single hρ hρ.this) hs).bind fun _ _ s s' hs _ => ?_
    refine (hm.eachOf rfl hs hmethods (hk.child 2 rfl)).bind fun u u' s s' hs hu => ?_
    refine (mirrors_closeScope hβ hs).bind fun _ _ s s' hs _ => ?_
    refine (mirrors_inClass k.2 hs).bind fun _ _ s s' hs _ => .pure hs ?_
    rintro ⟨⟩
    rw [hu rfl, hparent rfl]
  | subclass htoken hn hp hmethods =>
    refine hdeclare hn fun s s' hs => ?_
    refine (mirrors_superclass hρ h htoken hp (hk.child 0 rfl) (hk.child 1 rfl) hs).bind
      fun _ _ s s' hs hparent => ?_
    refine (mirrors_openScope (frameLike_single hρ hρ.this) hs).bind fun _ _ s s' hs _ => ?_
    refine (hm.eachOf rfl hs hmethods (hk.child 2 rfl)).bind fun u u' s s' hs hu => ?_
    refine (mirrors_closeScope (List.cons_ne_nil _ _) hs).bind fun _ _ s s' hs _ => ?_
    refine (mirrors_closeScope hβ hs).bind fun _ _ s s' hs _ => ?_
    refine (mirrors_inClass k.2 hs).bind fun _ _ s s' hs _ => .pure hs ?_
    rintro ⟨⟩
    rw [hu rfl, hparent rfl]

/-! ## Statements -/

theorem WalksAlike.optional (h : WalksAlike ρ known role walk)
    (hr : role = .statement ∨ role = .expression) : WalksAlike ρ known role (optional walk) := by
  intro β k s s' t t' hs ht hk
  have hnull : t.isNull = false ∧ t'.isNull = false := by
    rcases hr with rfl | rfl
    · exact TreeLike.isNull_eq (.inl ht)
    · exact TreeLike.isNull_eq (.inr ht)
  unfold Resolver.optional
  rw [hnull.1, hnull.2]
  exact h hs ht hk

/-- Classes with their slots apart. -/
def ClassesAlike (ρ : Change) (known : Name → Prop) (walk : Tree → Tree → Tree → Resolve Tree) :
    Prop :=
  ∀ ⦃β : List Bool⦄ ⦃k : Kinds⦄ ⦃s s' : State⦄ ⦃name name' parent parent' methods methods' : Tree⦄,
    StateLike ρ known β k s s' →
    TreeLike ρ .statement β (.classDecl name parent methods) (.classDecl name' parent' methods') →
    (Tree.classDecl name parent methods).Uses known →
    Mirrors ρ known (walk name parent methods) (walk name' parent' methods') s s' β k
      (Back (.classDecl name parent methods) (.classDecl name' parent' methods'))

/-- One level of statements, from the levels below. -/
theorem walksAlike_statement {room : Nat} (hρ : ρ.Avoids known)
    (hs : WalksAlike ρ known .statement (statement room))
    (hb : WalksAlike ρ known .body (body room))
    (hr : ∀ kind, WalksAlike ρ known .method (routineRule room kind))
    (hc : ClassesAlike ρ known (classRule room)) :
    WalksAlike ρ known .statement (statement (room + 1)) := by
  have he := walksAlike_expression hρ room
  intro β k s s' t t' hlike ht hk
  cases ht with
  | exprStmt h | printStmt h =>
    refine (he hlike h (hk.child 0 rfl)).bind fun u u' _ _ hlike hu => .pure hlike ?_
    rintro ⟨⟩
    rw [hu rfl]
  | emptyVar hn =>
    refine (mirrors_declare hρ hn (hk.child 0 rfl) false hlike).bind fun _ _ _ _ hlike _ => ?_
    refine Mirrors.bind (.pure hlike (P := Back .null .null) id) fun u u' _ _ hlike hu => ?_
    refine (mirrors_declare hρ hn (hk.child 0 rfl) true hlike).bind fun _ _ _ _ hlike _ => ?_
    refine .pure hlike ?_
    rintro ⟨⟩
    rw [hu rfl]
  | varDecl hn h =>
    refine (mirrors_declare hρ hn (hk.child 0 rfl) false hlike).bind fun _ _ _ _ hlike _ => ?_
    refine (he.optional (.inr rfl) hlike h (hk.child 1 rfl)).bind fun u u' _ _ hlike hu => ?_
    refine (mirrors_declare hρ hn (hk.child 0 rfl) true hlike).bind fun _ _ _ _ hlike _ => ?_
    refine .pure hlike ?_
    rintro ⟨⟩
    rw [hu rfl]
  | @block _ marked _ _ h =>
    have hβ := hlike.ne_nil
    refine (mirrors_openScope (frameLike_empty marked) hlike).bind fun _ _ _ _ hlike _ => ?_
    refine (hb hlike h (hk.child 0 rfl)).bind fun u u' _ _ hlike hu => ?_
    refine (mirrors_closeScope hβ hlike).bind fun _ _ _ _ hlike _ => .pure hlike ?_
    rintro ⟨⟩
    rw [hu rfl]
  | ifOnly hcond hthen =>
    refine (he hlike hcond (hk.child 0 rfl)).bind fun u u' _ _ hlike hu => ?_
    refine (hs hlike hthen (hk.child 1 rfl)).bind fun v v' _ _ hlike hv => ?_
    refine Mirrors.bind (.pure hlike (P := Back .null .null) id) fun w w' _ _ hlike hw => ?_
    refine .pure hlike ?_
    rintro ⟨⟩
    rw [hu rfl, hv rfl, hw rfl]
  | ifElse hcond hthen helse =>
    refine (he hlike hcond (hk.child 0 rfl)).bind fun u u' _ _ hlike hu => ?_
    refine (hs hlike hthen (hk.child 1 rfl)).bind fun v v' _ _ hlike hv => ?_
    refine (hs.optional (.inl rfl) hlike helse (hk.child 2 rfl)).bind fun w w' _ _ hlike hw => ?_
    refine .pure hlike ?_
    rintro ⟨⟩
    rw [hu rfl, hv rfl, hw rfl]
  | whileLoop hcond hbody =>
    refine (he hlike hcond (hk.child 0 rfl)).bind fun u u' _ _ hlike hu => ?_
    refine (hs hlike hbody (hk.child 1 rfl)).bind fun v v' _ _ hlike hv => .pure hlike ?_
    rintro ⟨⟩
    rw [hu rfl, hv rfl]
  | funDecl hn h =>
    refine (mirrors_declare hρ hn (hk.child 0 rfl) false hlike).bind fun _ _ _ _ hlike _ => ?_
    refine (mirrors_declare hρ hn (hk.child 0 rfl) true hlike).bind fun _ _ _ _ hlike _ => ?_
    exact hr .function hlike h hk
  | emptyReturn hkeyword =>
    obtain ⟨a', ha'⟩ := TokenLike.exists_token hkeyword
    refine (mirrors_checkReturn ha' rfl hlike).bind fun _ _ _ _ hlike _ => ?_
    refine Mirrors.bind (.pure hlike (P := Back .null .null) id) fun u u' _ _ hlike hu => ?_
    refine .pure hlike ?_
    rintro ⟨⟩
    rw [hu rfl]
  | returnStmt hkeyword h =>
    obtain ⟨a', ha'⟩ := TokenLike.exists_token hkeyword
    obtain ⟨hnull, hnull'⟩ := TreeLike.isNull_eq (.inr h)
    refine (mirrors_checkReturn ha' (hnull'.trans hnull.symm) hlike).bind fun _ _ _ _ hlike _ => ?_
    refine (he.optional (.inr rfl) hlike h (hk.child 1 rfl)).bind fun u u' _ _ hlike hu => ?_
    refine .pure hlike ?_
    rintro ⟨⟩
    rw [hu rfl]
  | rootClass hname hn hmethods => exact hc hlike (.rootClass hname hn hmethods) hk
  | subclass hname hn hp hmethods => exact hc hlike (.subclass hname hn hp hmethods) hk

/-- Alike programs are walked beside each other, at each depth. -/
theorem mirrors_walks (hρ : ρ.Avoids known) (room : Nat) :
    WalksAlike ρ known .statement (statement room) ∧ WalksAlike ρ known .body (body room) ∧
      (∀ kind, WalksAlike ρ known .method (routineRule room kind)) ∧
      ClassesAlike ρ known (classRule room) := by
  induction room with
  | zero =>
    refine ⟨walksAlike_throw, walksAlike_throw, fun _ => walksAlike_throw, ?_⟩
    intro β k s s' _ _ _ _ _ _ _ _ _
    exact .throw
  | succ room ih =>
    obtain ⟨hs, hb, hr, hc⟩ := ih
    refine ⟨walksAlike_statement hρ hs hb hr hc, ?_, fun kind => ?_, ?_⟩
    · exact (hs.optional (.inl rfl)).eachOf rfl
    · exact hb.routine hρ kind
    · intro β k s s' name name' parent parent' methods methods' hlike ht hk
      exact mirrors_classBody hρ (walksAlike_expression hρ room) (.method hr) ht hk hlike

/-- A program that is like a resolved one is resolved to itself, too. -/
theorem Passes.alike (hρ : ρ.Avoids known) {room : Nat} {us : List Tree} {s₁ : State}
    (h : Passes room s ts us s₁) : us = ts → List.Forall₂ (TreeLike ρ .statement β) ts ts' →
    (∀ t ∈ ts, t.Uses known) → ∀ {s' : State}, StateLike ρ known β k s s' →
    ∃ s₁', Passes room s' ts' ts' s₁' ∧ StateLike ρ known β k s₁ s₁' := by
  induction h generalizing ts' with
  | nil =>
    rintro - ⟨⟩ - s' hs
    exact ⟨s', .nil, hs⟩
  | cons ht _ ih =>
    rintro ⟨⟩ (_ | ⟨hlike, hrest⟩) hk s' hs
    obtain ⟨hkt, hks⟩ := List.forall_mem_cons.1 hk
    obtain ⟨u', s₁', hx, hs₁, hu⟩ := (mirrors_walks hρ room).1 hs hlike hkt _ _ ht
    obtain ⟨s₂', hpasses, hs₂⟩ := ih rfl hrest hks hs₁
    rw [hu rfl] at hx
    exact ⟨s₂', .cons hx hpasses, hs₂⟩

end Steps

end Resolver

end LoxLang
