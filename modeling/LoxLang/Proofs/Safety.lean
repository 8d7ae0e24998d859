import LoxLang.Proofs.Steps

/-!
# Safety

Every program whose uses are settled is walked safely (`safe_walks`). The walk knows at each tree
the position and the context of the tree, that the current scope is linked to the display, and that
the scopes of the display are active (`Here`). So the scopes of the machine are those that the
resolver had open at the tree, and each use is found where the resolver found it. The proof is one
induction over the room that is left, with one lemma for each of the four walks.
-/

namespace LoxLang

open Resolver (Frame depthOf? bindName bindReady afterStatement aroundMethods Ready Fine Settled)

variable {roots : List Tree} {w w' w'' : Watched} {α β : Type} {x : Watch α}
  {Q : α → Watched → Prop} {scopes : List Frame} {room rounds : Nat}

/-! ## Where a walk is -/

/-- The walk is at the tree, and the scopes of the display are active. -/
structure Here (roots : List Tree) (w : Watched) (p : Position) (display : List ScopeRef) (t : Tree)
    (c : Context) : Prop where
  located : Located roots p t c
  linked : Linked w display w.machine.current
  active : Active w display c.scopes (sitesOf roots p)

variable {p : Position} {display : List ScopeRef} {t u : Tree} {c c' : Context}

theorem Here.later (h : Here roots w p display t c) (hl : Later roots w w') :
    Here roots w' p display t c :=
  ⟨h.located, hl.current ▸ h.linked.mono hl.grows, h.active.mono hl.grows⟩

/-- A slot that no scope is opened around. -/
theorem Here.slot (h : Here roots w p display t c) (i : Nat) (hc : c.inside t i = some c')
    (hu : t.children[i]? = some u) (ho : t.opens i = [])
    (ha : Active w display c'.scopes (sitesOf roots p)) :
    Here roots w (p.below i) display u c' := by
  refine ⟨h.located.child i hc hu, h.linked, ?_⟩
  rw [h.located.sitesOf_below, ho]
  exact ha

theorem Here.child (h : Here roots w p display t c) (i : Nat) (hc : c.inside t i = some c')
    (hu : t.children[i]? = some u) (ho : t.opens i = []) (hs : c'.scopes = c.scopes) :
    Here roots w (p.below i) display u c' :=
  h.slot i hc hu ho (hs ▸ h.active)

theorem Active.exists_of_ready {sites : List Site} (h : Active w display scopes sites) {d : Nat}
    {key : Name} (hr : Ready scopes d key) :
    ∃ r, display[d]? = some r ∧ (w.machine.store.bound? r key).isSome := by
  obtain ⟨frame, hf, -⟩ := id hr
  have hd : d < display.length := h.length ▸ (List.getElem?_eq_some_iff.1 hf).1
  exact ⟨display[d], List.getElem?_eq_getElem hd, h.bound (List.getElem?_eq_getElem hd) hr⟩

/-- The current scope may get more names, but for the place where the methods of a class are. -/
theorem Here.open_current (hh : Here roots w p display t c) (h : Sound roots w)
    (hroots : AllFine roots) (hm : c.role ≠ .method) (hm' : c.role ≠ .members) :
    Open w w.machine.current := by
  have hgrowing := (hh.located.fits hroots).growing hm hm'
  rcases hh.linked.head with rfl | ⟨outer, rfl⟩
  · have hc := hh.linked.chain
    rw [Store.chain_eq] at hc
    rw [(List.cons.inj hc).1]
    exact h.open_globals
  · have horigins := hh.active.origins
    cases hsites : sitesOf roots p with
    | nil => simp [hsites] at horigins
    | cons site sites =>
      rw [hsites] at hgrowing
      exact hh.active.open_of_getElem? (d := 0) rfl (by rw [hsites]; rfl) (hgrowing site rfl)

/-- A scope that an identifier is resolved to may get more names. -/
theorem Here.open_of_depthOf? (hh : Here roots w p display t c) (hroots : AllFine roots) {s : String}
    (hs : Token.Kind.ofWord s = .identifier) {d : Nat}
    (hd : depthOf? c.scopes (.ofText s) = some d) : ∃ r, display[d]? = some r ∧ Open w r := by
  obtain ⟨site, hsite, ho⟩ := (hh.located.fits hroots).open_of_depthOf? hs hd
  obtain ⟨scope, -, hscope, -⟩ := Resolver.exists_of_depthOf? hd
  have hlt : d < display.length := hh.active.length ▸ (List.getElem?_eq_some_iff.1 hscope).1
  have hr := List.getElem?_eq_getElem hlt
  exact ⟨_, hr, hh.active.open_of_getElem? hr hsite ho⟩

/-- The uses at a settled tree are found. -/
theorem Active.found {sites : List Site} (ha : Active w display scopes sites) (h : Sound roots w)
    (ht : Settled scopes t) : Found w.machine display scopes t := by
  cases t with
  | ident name depth =>
    intro key hkey
    obtain ⟨hd, hr⟩ := ht key hkey
    exact ⟨hd, fun d he => ha.exists_of_ready (hr d he)⟩
  | assign name value depth => exact ht
  | thisRef keyword depth =>
    obtain ⟨d, hd, hthis, hr⟩ := ht
    obtain ⟨r, hr, hb⟩ := ha.exists_of_ready hr
    exact ⟨d, r, hd, hthis, hr, hb⟩
  | superRef keyword method depth =>
    obtain ⟨d, hd, hsuper, hr, hthis, hr'⟩ := ht
    obtain ⟨r, hr, hb⟩ := ha.exists_of_ready hr
    obtain ⟨r', hr', hb'⟩ := ha.exists_of_ready hr'
    obtain ⟨v, hv⟩ := Option.isSome_iff_exists.1 hb
    obtain ⟨k, rfl⟩ := h.supers hv
    exact ⟨d, r, r', k, hd, hsuper, hthis, hr, hv, hr', hb'⟩
  | _ => trivial

theorem Here.found (hh : Here roots w p display t c) (h : Sound roots w) (hroots : AllFine roots) :
    Found w.machine display c.scopes t :=
  hh.active.found h (hh.located.everywhere hroots).here.settled

/-- What stands at its place agrees with the resolver. -/
theorem Here.agrees (hh : Here roots w p display t c) (h : Sound roots w) (hroots : AllFine roots)
    (hc : c.role ≠ .body) : Agrees roots w.origins c ⟨p, t, display, w.machine⟩ where
  located := hh.located
  role := hc
  chain := hh.linked.chain
  globals := h.globals.chain
  first := h.first
  length := hh.active.length
  origins := hh.active.origins
  found := hh.found h hroots

/-- A visit is noted, and it agrees with the resolver. -/
theorem Safe.visit {f : Unit → Watch β} {R : β → Watched → Prop} (h : Sound roots w)
    (ha : Agrees roots w.origins c ⟨p, t, display, w.machine⟩)
    (hf : ∀ w', Later roots w w' → Safe roots (f ()) w' R) :
    Safe roots (Watch.visit p display t >>= f) w R := by
  let w₁ : Watched := { w with visits := w.visits.push ⟨p, t, display, w.machine⟩ }
  have hg : w.Grows w₁ := ⟨.refl _, rfl, rfl, rfl, id, id, id⟩
  have hkept : Kept w.machine w₁ := h.kept.mono hg
  have hs : Sound roots w₁ := by
    refine h.of_grows hg h.size_origins h.size_subjects h.size_homes hkept .inl .inl
      (h.fields_of_grows hg rfl) ?_
    intro v hv
    rcases Array.mem_push.1 hv with hv | rfl
    · exact .inl hv
    · exact .inr ⟨⟨c, ha⟩, hkept, h.staffed_machine⟩
  refine Safe.bind (P := fun _ w' => w' = w₁) (Ends.of_ok rfl ⟨⟨hs, hg, rfl⟩, rfl⟩) ?_
  rintro _ _ hl rfl
  exact hf _ hl

/-! ## Sequences, loops and scopes -/

/-- Arguments are evaluated to valid values. -/
theorem safe_evaluateEach {evaluate : Nat → Tree → Watch Value} {items : List Tree} :
    ∀ {done : List Value} {i : Nat} {w : Watched}, Sound roots w → (∀ v ∈ done, Valid roots w v) →
      (∀ j t, items[j]? = some t → ∀ w', Later roots w w' →
        Safe roots (evaluate (i + j) t) w' fun v w'' => Valid roots w'' v) →
      Safe roots (Watch.evaluateEach evaluate done i items) w fun vs w' =>
        ∀ v ∈ vs, Valid roots w' v := by
  induction items with
  | nil =>
    intro done i w h hdone _
    exact .pure h fun v hv => hdone v (List.mem_reverse.1 hv)
  | cons t items ih =>
    intro done i w h hdone hitems
    refine (hitems 0 t rfl w (.refl h)).bind fun v w₁ hl hv => ?_
    refine ih hl.sound ?_ fun j u hj w' hl' => ?_
    · exact List.forall_mem_cons.2 ⟨hv, fun u hu => (hdone u hu).mono hl.grows⟩
    · have := hitems (j + 1) u hj w' (hl.trans hl')
      rwa [Nat.add_comm j 1, ← Nat.add_assoc] at this

/-- A loop is safe, by induction on its rounds. -/
theorem safe_repeatWhile {condition : Watch Value} {body : Watch Completion} (rounds : Nat)
    (h : Sound roots w)
    (hc : ∀ w', Later roots w w' → Safe roots condition w' fun v w'' => Valid roots w'' v)
    (hb : ∀ w', Later roots w w' →
      Safe roots body w' fun completion w'' => Valid roots w'' completion.value) :
    Safe roots (Watch.repeatWhile condition body rounds) w fun completion w' =>
      Valid roots w' completion.value := by
  induction rounds generalizing w with
  | zero => exact .throw h trivial
  | succ rounds ih =>
    refine (hc w (.refl h)).bind fun v w₁ hl₁ _ => ?_
    split
    · refine (hb w₁ hl₁).bind fun completion w₂ hl₂ hv => ?_
      have hl := hl₁.trans hl₂
      cases completion with
      | normal =>
        exact ih hl₂.sound (fun w' hl' => hc w' (hl.trans hl')) fun w' hl' => hb w' (hl.trans hl')
      | returned value => exact .pure hl₂.sound hv
    · exact .pure hl₁.sound trivial

/-- An overflow is an error at its token. -/
theorem safe_overflowAt (slot : Token) (hx : Safe roots x w Q) :
    Safe roots (Watch.overflowAt (.token slot) x) w Q := by
  unfold Safe Ends Watch.overflowAt at *
  cases hr : x w with
  | ok a w' =>
    rw [hr] at hx
    exact hx
  | error e w' =>
    rw [hr] at hx
    cases e with
    | overflow => exact ⟨hx.1, nofun, nofun⟩
    | _ => exact hx

theorem Watch.inScope_eq (r : ScopeRef) (x : Watch α) (w : Watched) : Watch.inScope r x w =
    match x (w.enter r) with
    | .ok a w' => .ok a (w'.enter w.machine.current)
    | .error e w' => .error e (w'.enter w.machine.current) := rfl

/-- A safe run in another scope is safe, and the machine comes back. -/
theorem safe_inScope (r : ScopeRef) (hx : Safe roots x (w.enter r) Q)
    (hQ : ∀ a w', Q a w' → ∀ r', Q a (w'.enter r')) : Safe roots (Watch.inScope r x) w Q := by
  have hback {w' : Watched} (hl : Later roots (w.enter r) w') :
      Later roots w (w'.enter w.machine.current) :=
    ⟨hl.sound.enter _, (w.grows_enter r).trans (hl.grows.trans (w'.grows_enter _)), rfl⟩
  cases hr : x (w.enter r) with
  | ok a w' =>
    have hrun : Watch.inScope r x w = .ok a (w'.enter w.machine.current) := by
      rw [Watch.inScope_eq, hr]
    obtain ⟨hl, ha⟩ := Ends.ok hx hr
    exact Ends.of_ok hrun ⟨hback hl, hQ a w' ha _⟩
  | error e w' =>
    have hrun : Watch.inScope r x w = .error e (w'.enter w.machine.current) := by
      rw [Watch.inScope_eq, hr]
    obtain ⟨hl, he⟩ := Ends.error hx hr
    exact Ends.of_error hrun ⟨hback hl, he⟩

theorem safe_setField (h : Sound roots w) {o : ObjectRef} {slot : Tree} {key : Name}
    (hslot : slot.asName = .ok key) {v : Value} (hv : Valid roots w v) :
    Safe roots (Watch.plain (Exec.setField o slot v)) w fun _ _ => True := by
  rw [Exec.setField, Watch.plain_bind]
  exact .lift hslot (.plain rfl ⟨h.setField hv, w.grows_setField o key v, rfl⟩ trivial)

/-! ## The four walks -/

/-- Expressions are evaluated safely, to values that refer to what is there. -/
def EvaluateSafe (roots : List Tree)
    (evaluate : Position → List ScopeRef → Tree → Watch Value) : Prop :=
  ∀ {w : Watched} {p : Position} {display : List ScopeRef} {t : Tree} {scopes : List Frame},
    Sound roots w → Here roots w p display t ⟨.expression, scopes⟩ →
    Safe roots (evaluate p display t) w fun v w' => Valid roots w' v

/-- Statements are executed safely, and leave the name that they declare ready. -/
def ExecuteSafe (roots : List Tree)
    (execute : Position → List ScopeRef → Tree → Watch Completion) : Prop :=
  ∀ {w : Watched} {p : Position} {display : List ScopeRef} {t : Tree} {scopes : List Frame},
    Sound roots w → Here roots w p display t ⟨.statement, scopes⟩ →
    Safe roots (execute p display t) w fun completion w' => Valid roots w' completion.value ∧
      Active w' display (afterStatement scopes t) (sitesOf roots p)

/-- Values are called safely. -/
def CallSafe (roots : List Tree) (call : Value → List Value → Tree → Watch Value) : Prop :=
  ∀ {w : Watched} {v : Value} {arguments : List Value}, Sound roots w → Valid roots w v →
    (∀ v ∈ arguments, Valid roots w v) → ∀ paren : Token,
    Safe roots (call v arguments (.token paren)) w fun v w' => Valid roots w' v

/-- An identifier is read safely. -/
theorem safe_evaluate_ident {name : Tree} {depth : Option Nat} (h : Sound roots w)
    (hname : name.IsName) (hl : Linked w display w.machine.current)
    (ha : Agrees roots w.origins c ⟨p, .ident name depth, display, w.machine⟩) (room : Nat) :
    Safe roots (Watch.evaluate rounds room p display (.ident name depth)) w fun v w' =>
      Valid roots w' v := by
  cases room with
  | zero => exact .throw h trivial
  | succ room =>
    obtain ⟨s, hs, -⟩ := hname.exists_key
    unfold Watch.evaluate
    refine .visit h ha fun w₁ hl₁ => ?_
    refine safe_lookUp hl₁.sound (hl₁.current ▸ hl.mono hl₁.grows) hs fun d hd => ?_
    obtain ⟨r, hr, hb⟩ := (ha.found _ hs).2 d hd
    exact ⟨r, hr, hl₁.grows.store.bound hb⟩

/-- With one more level of room, expressions are evaluated safely. -/
theorem evaluateSafe_succ (hroots : AllFine roots)
    (hevaluate : EvaluateSafe roots (Watch.evaluate rounds room))
    (hcall : CallSafe roots (Watch.call rounds room)) :
    EvaluateSafe roots (Watch.evaluate rounds (room + 1)) := by
  intro w p display t scopes h hh
  have hagrees := hh.agrees h hroots (by rintro ⟨⟩)
  have hform : Formed .expression t := (hh.located.everywhere hroots).here.formed
  unfold Watch.evaluate
  refine .visit h hagrees fun w₁ hl₁ => ?_
  have hs₁ := hl₁.sound
  have hh₁ := hh.later hl₁
  cases hform with
  | literal =>
    refine .pure hs₁ ?_
    unfold Value.ofLiteral
    split <;> trivial
  | grouping => exact hevaluate hs₁ (hh₁.child 0 rfl rfl rfl rfl)
  | unary hop =>
    refine (hevaluate hs₁ (hh₁.child 1 rfl rfl rfl rfl)).bind fun v w₂ hl₂ _ => ?_
    rw [Exec.unary, Watch.plain_bind]
    exact .lift rfl (safe_orRaise hl₂.sound _ (operates_unary hop v))
  | binary hop hlevel =>
    refine (hevaluate hs₁ (hh₁.child 0 rfl rfl rfl rfl)).bind fun l w₂ hl₂ _ => ?_
    refine (hevaluate hl₂.sound ((hh₁.later hl₂).child 2 rfl rfl rfl rfl)).bind fun r w₃ hl₃ _ => ?_
    rw [Exec.binary, Watch.plain_bind]
    exact .lift rfl (safe_orRaise hl₃.sound _ (operates_binary hop hlevel l r))
  | logical =>
    refine (hevaluate hs₁ (hh₁.child 0 rfl rfl rfl rfl)).bind fun l w₂ hl₂ hv => ?_
    refine .read rfl ?_
    split
    · exact .pure hl₂.sound hv
    · exact hevaluate hl₂.sound ((hh₁.later hl₂).child 2 rfl rfl rfl rfl)
  | ident hname =>
    obtain ⟨s, hs, -⟩ := hname.exists_key
    refine safe_lookUp hs₁ hh₁.linked hs fun d hd => ?_
    exact (hh₁.found hs₁ hroots _ hs).2 d hd
  | @assign name value depth hname =>
    refine (hevaluate hs₁ (hh₁.child 1 rfl rfl rfl rfl)).bind fun v w₂ hl₂ hv => ?_
    have hh₂ := hh₁.later hl₂
    refine .visit hl₂.sound (hh₂.agrees hl₂.sound hroots (by rintro ⟨⟩)) fun w₃ hl₃ => ?_
    have hh₃ := hh₂.later hl₃
    have hdepth : ∀ d, depth = some d → ∃ r, display[d]? = some r ∧ Open w₃ r := by
      intro d hd
      obtain ⟨s, hs, hw⟩ := hname.exists_key
      exact hh₃.open_of_depthOf? hroots hw ((hh₃.found hl₃.sound hroots _ hs).symm.trans hd)
    refine (safe_assign hl₃.sound hh₃.linked hname hdepth (hv.mono hl₃.grows)).bind
      fun _ w₄ hl₄ _ => ?_
    exact .pure hl₄.sound ((hv.mono hl₃.grows).mono hl₄.grows)
  | @call callee arguments paren =>
    have hhargs := hh₁.child 2 rfl rfl rfl rfl
    have hargs : Formed .arguments arguments := (hhargs.located.everywhere hroots).here.formed
    refine (hevaluate hs₁ (hh₁.child 0 rfl rfl rfl rfl)).bind fun f w₂ hl₂ hf => ?_
    cases hargs with
    | @arguments items =>
    refine .lift rfl ((safe_evaluateEach hl₂.sound (by simp) fun j t hj w' hl' => ?_).bind
      fun vs w₃ hl₃ hvs => ?_)
    · rw [Nat.zero_add]
      exact hevaluate hl'.sound (((hhargs.later hl₂).later hl').child j rfl hj rfl rfl)
    · exact safe_overflowAt paren (hcall hl₃.sound (hf.mono hl₃.grows) hvs paren)
  | getField hname =>
    refine (hevaluate hs₁ (hh₁.child 0 rfl rfl rfl rfl)).bind fun v w₂ hl₂ hv => ?_
    cases v with
    | object o => exact safe_property hl₂.sound hv hname
    | _ =>
      obtain ⟨token, _, rfl, -, -⟩ := hname
      exact safe_raise hl₂.sound token (by rintro ⟨⟩) (by rintro ⟨⟩)
  | setField hname =>
    refine (hevaluate hs₁ (hh₁.child 0 rfl rfl rfl rfl)).bind fun v w₂ hl₂ hv => ?_
    cases v with
    | object o =>
      refine (hevaluate hl₂.sound ((hh₁.later hl₂).child 2 rfl rfl rfl rfl)).bind
        fun u w₃ hl₃ hu => ?_
      obtain ⟨s, hs, -⟩ := hname.exists_key
      refine Safe.bind (safe_setField hl₃.sound hs hu) fun _ w₄ hl₄ _ => ?_
      exact .pure hl₄.sound (hu.mono hl₄.grows)
    | _ =>
      obtain ⟨token, _, rfl, -, -⟩ := hname
      exact safe_raise hl₂.sound token (by rintro ⟨⟩) (by rintro ⟨⟩)
  | thisRef hword =>
    obtain ⟨d, r, hd, -, hr, hb⟩ := hh₁.found hs₁ hroots
    refine safe_lookUp hs₁ hh₁.linked hword.asName fun d' hd' => ?_
    cases hd.symm.trans hd'
    exact ⟨r, hr, hb⟩
  | superRef hword hmethod =>
    obtain ⟨d, r, r', k, hd, -, -, hr, hk, hr', ht⟩ := hh₁.found hs₁ hroots
    subst hd
    exact safe_superMethod hs₁ hh₁.linked hmethod hr hk hr' ht

theorem Here.active_after_none (hh : Here roots w p display t c) (hl : Later roots w w')
    (hd : t.declared? = none) :
    Active w' display (afterStatement c.scopes t) (sitesOf roots p) := by
  rw [Resolver.afterStatement_of_none hd]
  exact hh.active.mono hl.grows

/-- The superclass of a class is evaluated before the name of the class is bound, which is another
name. -/
theorem safe_parent (hroots : AllFine roots) {name parent methods : Tree} (h : Sound roots w)
    (hh : Here roots w p display (.classDecl name parent methods) ⟨.statement, scopes⟩)
    (hn : parent.isNull = false) :
    Safe roots (Watch.evaluate rounds room (p.below 1) display parent) w fun v w' =>
      Valid roots w' v := by
  have hfine := (hh.located.everywhere hroots).here
  have hform : Formed .statement (.classDecl name parent methods) := hfine.formed
  cases hform with
  | rootClass => cases hn
  | @subclass _ pname _ depth hname hparent =>
    obtain ⟨_, hkey, -⟩ := hname.exists_key
    have hloc := hh.located.child 1 rfl rfl
    have hsettled := (hloc.everywhere hroots).here.settled
    refine safe_evaluate_ident h hparent hh.linked
      ⟨hloc, nofun, hh.linked.chain, h.globals.chain, h.first, ?_, ?_, fun other hother => ?_⟩ room
    · exact (Resolver.length_bindReady ..).trans hh.active.length
    · show _ = (sitesOf roots (p.below 1)).map _
      rw [hh.located.sitesOf_below]
      exact hh.active.origins
    · obtain ⟨hd, hready⟩ := hsettled other hother
      have hne := hfine.settled _ other hkey hother
      refine ⟨hd, fun d he => hh.active.exists_of_ready ?_⟩
      rcases ready_bindName hkey (hready d he) with hr | ⟨-, -, hk⟩
      · rcases ready_bindName hkey hr with hr | ⟨-, -, hk⟩
        · exact hr
        · simp [hne] at hk
      · simp [hne] at hk

/-- With one more level of room, statements are executed safely. -/
theorem executeSafe_succ (hroots : AllFine roots)
    (hevaluate : EvaluateSafe roots (Watch.evaluate rounds room))
    (hexecute : ExecuteSafe roots (Watch.execute rounds room))
    (hblock : BlockSafe roots (Watch.executeBlock rounds room)) :
    ExecuteSafe roots (Watch.execute rounds (room + 1)) := by
  intro w p display t scopes h hh
  have hagrees := hh.agrees h hroots (by rintro ⟨⟩)
  have hform : Formed .statement t := (hh.located.everywhere hroots).here.formed
  unfold Watch.execute
  refine .visit h hagrees fun w₁ hl₁ => ?_
  have hs₁ := hl₁.sound
  have hh₁ := hh.later hl₁
  have hopen := hh₁.open_current hs₁ hroots (by rintro ⟨⟩) (by rintro ⟨⟩)
  cases hform with
  | exprStmt =>
    refine (hevaluate hs₁ (hh₁.child 0 rfl rfl rfl rfl)).bind fun v w₂ hl₂ _ => ?_
    exact .pure hl₂.sound ⟨trivial, hh₁.active_after_none hl₂ rfl⟩
  | printStmt =>
    refine (hevaluate hs₁ (hh₁.child 0 rfl rfl rfl rfl)).bind fun v w₂ hl₂ hv => ?_
    exact (safe_printValue hl₂.sound hv).imp fun _ w₃ hl₃ hc =>
      ⟨hc, hh₁.active_after_none (hl₂.trans hl₃) rfl⟩
  | @varDecl name initializer hname =>
    obtain ⟨_, hkey, -⟩ := hname.exists_key
    dsimp only
    split
    · exact safe_declareVar hs₁ hh₁.linked hh₁.active hopen hname trivial
    · next hn =>
      have hc : Context.inside ⟨.statement, scopes⟩ (.varDecl name initializer) 1 =
          some ⟨.expression, bindName scopes name false⟩ := by
        simp [Context.inside, Role.inside, Role.optional, hn, scopesInside]
      have hhi := hh₁.slot 1 hc rfl rfl (hh₁.active.bindName hkey)
      refine (hevaluate hs₁ hhi).bind fun v w₂ hl₂ hv => ?_
      have hh₂ := hh₁.later hl₂
      exact safe_declareVar hl₂.sound hh₂.linked hh₂.active
        (hh₂.open_current hl₂.sound hroots (by rintro ⟨⟩) (by rintro ⟨⟩)) hname hv
  | @block items =>
    have hnew : Holds (w₁.addScope ⟨.block, p⟩ .block w₁.machine.current).machine w₁.homes
        w₁.nextScope (some ⟨.block, p⟩) (some .block) := trivial
    refine .read rfl ((safe_addScope hs₁ hnew).bind ?_)
    rintro _ w₂ hl₂ ⟨rfl, rfl⟩
    have hactive := hh₁.active.addScope hs₁ ⟨.block, p⟩ .block w₁.machine.current
    have hsites := hh₁.located.sitesOf_below 0
    refine (hblock hl₂.sound (hh₁.located.child 0 rfl rfl) (hh₁.linked.addScope _ _)
      (hsites ▸ hactive)).imp fun _ w₃ hl₃ hc => ⟨hc, hh₁.active_after_none (hl₂.trans hl₃) rfl⟩
  | @ifElse condition thenBranch elseBranch hthen helse =>
    refine (hevaluate hs₁ (hh₁.child 0 rfl rfl rfl rfl)).bind fun v w₂ hl₂ hv => ?_
    have hline : ∃ text, Exec.conditionText w₂.machine v = .ok text := by
      obtain ⟨text, ht⟩ := hl₂.sound.text hv
      exact ⟨_, by rw [Exec.conditionText, ht]; rfl⟩
    refine (safe_note hl₂.sound hline).bind fun _ w₃ hl₃ _ => ?_
    have hl := hl₂.trans hl₃
    have hh₃ := hh₁.later hl
    split
    · exact (hexecute hl₃.sound (hh₃.child 1 rfl rfl rfl rfl)).imp fun _ w₄ hl₄ hc =>
        ⟨hc.1, hh₃.active_after_none hl₄ rfl⟩
    · split
      · exact .pure hl₃.sound ⟨trivial, hh₁.active_after_none hl rfl⟩
      · next hn =>
        have hc : Context.inside ⟨.statement, scopes⟩ (.ifElse condition thenBranch elseBranch) 2 =
            some ⟨.statement, scopes⟩ := by
          simp [Context.inside, Role.inside, Role.optional, hn, scopesInside]
        exact (hexecute hl₃.sound (hh₃.child 2 hc rfl rfl rfl)).imp fun _ w₄ hl₄ hc =>
          ⟨hc.1, hh₃.active_after_none hl₄ rfl⟩
  | whileLoop hbody =>
    refine (safe_repeatWhile rounds hs₁ (fun w' hl => ?_) fun w' hl => ?_).imp
      fun _ w₂ hl₂ hc => ⟨hc, hh₁.active_after_none hl₂ rfl⟩
    · exact hevaluate hl.sound ((hh₁.later hl).child 0 rfl rfl rfl rfl)
    · exact (hexecute hl.sound ((hh₁.later hl).child 1 rfl rfl rfl rfl)).imp fun _ _ _ hc => hc.1
  | @funDecl name body params hname hparams =>
    refine safe_declareFunction hs₁ hh₁.linked hh₁.active hopen hname fun f hf => ?_
    refine .intro hf hparams (hh₁.located.child 2 rfl rfl) ?_
    rw [hh₁.located.sitesOf_below]
    rfl
  | @returnStmt keyword value =>
    dsimp only
    split
    · exact .pure hs₁ ⟨trivial, hh₁.active_after_none (.refl hs₁) rfl⟩
    · next hn =>
      have hc : Context.inside ⟨.statement, scopes⟩ (.returnStmt (.token keyword) value) 1 =
          some ⟨.expression, scopes⟩ := by
        simp [Context.inside, Role.inside, Role.optional, hn, scopesInside]
      refine (hevaluate hs₁ (hh₁.child 1 hc rfl rfl rfl)).bind fun v w₂ hl₂ hv => ?_
      exact .pure hl₂.sound ⟨hv, hh₁.active_after_none hl₂ rfl⟩
  | rootClass | subclass =>
    exact safe_declareClass hroots hs₁ hh₁.located hh₁.linked hh₁.active hopen
      (safe_parent hroots hs₁ hh₁)

/-- The statements of a body are executed in order, each with what the ones before it declare. -/
theorem safe_executeEach (hroots : AllFine roots)
    (hexecute : ExecuteSafe roots (Watch.execute rounds room)) {p : Position}
    {display : List ScopeRef} {rest : List Tree} :
    ∀ (before : List Tree) {w : Watched}, Sound roots w →
      Located roots p (.list (before ++ rest)) ⟨.body, scopes⟩ →
      Linked w display w.machine.current →
      Active w display (before.foldl afterStatement scopes) (sitesOf roots p) →
      Safe roots (Watch.executeEach (fun i => Watch.execute rounds room (p.below i) display)
        before.length rest) w fun completion w' => Valid roots w' completion.value := by
  induction rest with
  | nil => exact fun _ _ h _ _ _ => .pure h trivial
  | cons t rest ih =>
    intro before w h hloc hl ha
    have hnext : before ++ t :: rest = before ++ [t] ++ rest := by simp
    have hhere : Here roots w (p.below before.length) display t
        ⟨.statement, before.foldl afterStatement scopes⟩ := by
      have hchild := hloc.child before.length rfl (u := t) (by simp [Tree.children])
      refine ⟨?_, hl, ?_⟩
      · have hscopes : scopesInside scopes .body (.list (before ++ t :: rest)) before.length =
            before.foldl afterStatement scopes := by
          simp [scopesInside]
        rw [← hscopes]
        exact hchild
      · rw [hloc.sitesOf_below]
        exact ha
    have hform : Formed .statement t := (hhere.located.everywhere hroots).here.formed
    unfold Watch.executeEach
    split
    · next hn => simp [hform.isNull_eq] at hn
    · refine (hexecute h hhere).bind fun completion w₁ hl₁ hdone => ?_
      obtain ⟨hc, ha₁⟩ := hdone
      cases completion with
      | returned value => exact .pure hl₁.sound hc
      | normal =>
        rw [hnext] at hloc
        rw [hloc.sitesOf_below] at ha₁
        have hactive : Active w₁ display ((before ++ [t]).foldl afterStatement scopes)
            (sitesOf roots p) := by
          rw [List.foldl_append]
          exact ha₁
        have hrest := ih (before ++ [t]) hl₁.sound hloc (hl₁.current ▸ hl.mono hl₁.grows) hactive
        rwa [List.length_append] at hrest

/-- A block is safe, from what one level less of room gives. -/
theorem blockSafe_succ (hroots : AllFine roots)
    (hexecute : ExecuteSafe roots (Watch.execute rounds room)) :
    BlockSafe roots (Watch.executeBlock rounds (room + 1)) := by
  intro w p display body scopes r h hloc hl ha
  have hform : Formed .body body := (hloc.everywhere hroots).here.formed
  have hg := w.grows_enter r
  cases hform with
  | @body items =>
  unfold Watch.executeBlock
  refine safe_inScope r (.lift rfl ?_) fun _ w' hv r' => hv.mono (w'.grows_enter r')
  exact safe_executeEach hroots hexecute [] (h.enter r) hloc (hl.mono hg) (ha.mono hg)

/-- A call is safe, from what one level less of room gives. -/
theorem callSafe_succ (hblock : BlockSafe roots (Watch.executeBlock rounds room))
    (hcall : CallSafe roots (Watch.call rounds room)) :
    CallSafe roots (Watch.call rounds (room + 1)) := by
  intro w v arguments h hv harguments paren
  unfold Watch.call
  cases v with
  | native f =>
    cases f with
    | clock =>
      refine (safe_checkArity h paren _ _).bind ?_
      rintro _ _ - ⟨rfl, -⟩
      exact safe_readClock h
  | function r => exact safe_callFunction hblock h hv harguments paren
  | cls c =>
    refine safe_callClass h c (fun hl hv' => ?_) paren
    exact hcall hl.sound hv' (fun u hu => (harguments u hu).mono hl.grows) paren
  | _ => exact safe_raise h paren (by rintro ⟨⟩) (by rintro ⟨⟩)

/-- In a session whose programs are settled, a sound machine stays sound, and all that it is given
to walk is walked safely. -/
theorem safe_walks (hroots : AllFine roots) (rounds room : Nat) :
    EvaluateSafe roots (Watch.evaluate rounds room) ∧
    ExecuteSafe roots (Watch.execute rounds room) ∧
    BlockSafe roots (Watch.executeBlock rounds room) ∧
    CallSafe roots (Watch.call rounds room) := by
  induction room with
  | zero =>
    refine ⟨fun h _ => ?_, fun h _ => ?_, fun h _ _ _ => ?_, fun h _ _ _ => ?_⟩
    · unfold Watch.evaluate
      exact .throw h trivial
    · unfold Watch.execute
      exact .throw h trivial
    · unfold Watch.executeBlock
      exact .throw h trivial
    · unfold Watch.call
      exact .throw h trivial
  | succ room ih =>
    obtain ⟨hevaluate, hexecute, hblock, hcall⟩ := ih
    exact ⟨evaluateSafe_succ hroots hevaluate hcall,
      executeSafe_succ hroots hevaluate hexecute hblock, blockSafe_succ hroots hexecute,
      callSafe_succ hblock hcall⟩

end LoxLang
