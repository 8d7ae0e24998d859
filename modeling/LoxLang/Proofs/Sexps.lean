import LoxLang.Proofs.Numerals

/-!
# Texts in parentheses

An s-expression is an atom, or a list of s-expressions in parentheses with single spaces between
them. Nothing in an atom is escaped: a word has no character that could end it and is no numeral,
and a quoted text has no quote inside. Under these conditions (`Sexp.Valid`) the text of an
s-expression is the text of no other one, whatever follows it (`Sexp.Valid.readable`).
-/

namespace LoxLang

/-- What an s-expression is made of. -/
inductive Atom where
  | word (s : String)
  | number (x : Float)
  | quoted (s : String)

/-- An atom, or s-expressions in parentheses. -/
inductive Sexp where
  | atom (a : Atom)
  | node (parts : List Sexp)

/-- The characters of words and numbers. -/
def isPlain (c : Char) : Bool :=
  !(c = ' ' || c = '"' || c = '(' || c = ')')

/-- The text has no character that could end it, and it is no numeral. -/
def isWordText (s : String) : Bool :=
  s != "" && s.toList.all isPlain && (Decimal.Numeral.take s.toList).isNone

/-! ## Atoms -/

namespace Atom

/-- The text of an atom. -/
def text : Atom → String
  | word s => s
  | number x => Scalar.numberText x
  | quoted s => "\"" ++ s ++ "\""

/-- The atom can be told from what stands around it and from other atoms. -/
def Valid : Atom → Prop
  | word s => isWordText s = true
  | number x => Decimal.isSpecial x.toBits = false
  | quoted s => '"' ∉ s.toList

/-- The atom is a string in quotes. -/
def isQuoted : Atom → Bool
  | quoted _ => true
  | _ => false

end Atom

/-- What can follow an s-expression: nothing, a space or a parenthesis that closes. -/
def Bounded (r : List Char) : Prop :=
  ∀ c ∈ r.head?, c = ' ' ∨ c = ')'

/-- A text ends where its first character of another class is. -/
theorem append_inj_of_class {p : Char → Bool} {s s' r r' : List Char} (hs : ∀ c ∈ s, p c = true)
    (hs' : ∀ c ∈ s', p c = true) (hr : ∀ c ∈ r.head?, p c = false)
    (hr' : ∀ c ∈ r'.head?, p c = false) (h : s ++ r = s' ++ r') : s = s' ∧ r = r' := by
  have hnone {r : List Char} (hr : ∀ c ∈ r.head?, p c = false) : r.takeWhile p = [] := by
    cases r with
    | nil => rfl
    | cons c r => exact List.takeWhile_cons_of_neg (Bool.eq_false_iff.1 (hr c rfl))
  have hfirst := congrArg (List.takeWhile p) h
  rw [List.takeWhile_append_of_pos hs, List.takeWhile_append_of_pos hs', hnone hr, hnone hr',
    List.append_nil, List.append_nil] at hfirst
  subst hfirst
  exact ⟨rfl, List.append_cancel_left h⟩

/-- What is in a class without the characters that structure the text is plain. -/
theorem isPlain_of_class {p : Char → Bool} {c : Char} (h : p c = true) (hspace : p ' ' = false)
    (hquote : p '"' = false) (hopen : p '(' = false) (hclose : p ')' = false) :
    isPlain c = true := by
  have hne {d : Char} (hd : p d = false) : c ≠ d := by
    rintro rfl
    rw [hd] at h
    cases h
  simp [isPlain, hne hspace, hne hquote, hne hopen, hne hclose]

namespace Atom

variable {a b : Atom} {s : String} {r r' : List Char}

theorem valid_word_iff : (word s).Valid ↔
    s ≠ "" ∧ (∀ c ∈ s.toList, isPlain c = true) ∧ Decimal.Numeral.take s.toList = none := by
  simp [Valid, isWordText, and_assoc]

/-- An atom without quotes is made of plain characters. -/
theorem Valid.plain (ha : a.Valid) (hq : a.isQuoted = false) :
    a.text.toList ≠ [] ∧ ∀ c ∈ a.text.toList, isPlain c = true := by
  cases a with
  | word s =>
    obtain ⟨hne, hplain, -⟩ := valid_word_iff.1 ha
    exact ⟨fun h => hne (String.toList_eq_nil_iff.1 h), hplain⟩
  | number x =>
    obtain ⟨n, hn, -⟩ := Decimal.spelled_numberText ha
    refine ⟨fun h => ?_, hn.forall_mem (fun _ hc => isPlain_of_class hc rfl rfl rfl rfl)
      (by simp [isPlain])⟩
    have hread := hn.take
    rw [show (Scalar.numberText x).toList = [] from h] at hread
    cases hread
  | quoted s => cases hq

/-- Atoms without quotes are told apart by their texts. -/
theorem eq_of_text_eq (ha : a.Valid) (hb : b.Valid) (hqa : a.isQuoted = false)
    (hqb : b.isQuoted = false) (h : a.text = b.text) : a = b := by
  have hmixed {s : String} {x : Float} (hs : (word s).Valid) (hx : (number x).Valid)
      (h : s = Scalar.numberText x) : False := by
    obtain ⟨n, hn, -⟩ := Decimal.spelled_numberText hx
    have hnone := (valid_word_iff.1 hs).2.2
    rw [h, hn.take] at hnone
    cases hnone
  cases a with
  | word s =>
    cases b with
    | word t => exact congrArg word h
    | number y => exact (hmixed ha hb h).elim
    | quoted t => cases hqb
  | number x =>
    cases b with
    | word t => exact (hmixed hb ha h.symm).elim
    | number y => exact congrArg number (Decimal.numberText_injective ha hb h)
    | quoted t => cases hqb
  | quoted s => cases hqa

theorem toList_quoted (s : String) : (quoted s).text.toList = '"' :: (s.toList ++ ['"']) := by
  simp [text]

/-- A text that is not quoted ends before the first character that is not plain. -/
theorem Valid.readable_plain (ha : a.Valid) (hb : b.Valid) (hqa : a.isQuoted = false)
    (hqb : b.isQuoted = false) (hr : Bounded r) (hr' : Bounded r')
    (h : a.text.toList ++ r = b.text.toList ++ r') : a = b ∧ r = r' := by
  have hends {r : List Char} (hr : Bounded r) : ∀ c ∈ r.head?, isPlain c = false := by
    intro c hc
    rcases hr c hc with rfl | rfl <;> rfl
  obtain ⟨htext, rfl⟩ :=
    append_inj_of_class (ha.plain hqa).2 (hb.plain hqb).2 (hends hr) (hends hr') h
  exact ⟨eq_of_text_eq ha hb hqa hqb (String.toList_inj.1 htext), rfl⟩

/-- A quoted text ends at its second quote. -/
theorem Valid.readable_quoted {t : String} (hs : (quoted s).Valid) (ht : (quoted t).Valid)
    (h : (quoted s).text.toList ++ r = (quoted t).text.toList ++ r') :
    quoted s = quoted t ∧ r = r' := by
  have hinside {s : String} (hs : (quoted s).Valid) : ∀ c ∈ s.toList, (c != '"') = true := by
    intro c hc
    rw [bne_iff_ne]
    rintro rfl
    exact hs hc
  rw [toList_quoted, toList_quoted, List.cons_append, List.cons_append, List.append_assoc,
    List.append_assoc] at h
  obtain ⟨htext, hrest⟩ :=
    append_inj_of_class (hinside hs) (hinside ht) (by simp) (by simp) (List.cons.inj h).2
  exact ⟨congrArg quoted (String.toList_inj.1 htext), List.append_cancel_left hrest⟩

theorem Valid.ne_quoted (ha : a.Valid) (hq : a.isQuoted = false) :
    a.text.toList ++ r ≠ (quoted s).text.toList ++ r' := by
  obtain ⟨hne, hplain⟩ := ha.plain hq
  obtain ⟨c, rest, hc⟩ := List.exists_cons_of_ne_nil hne
  rw [hc] at hplain
  rw [hc, toList_quoted]
  intro h
  cases (List.cons.inj h).1
  cases hplain _ List.mem_cons_self

/-- An atom can be told from what follows it. -/
theorem Valid.readable (ha : a.Valid) (hb : b.Valid) (hr : Bounded r) (hr' : Bounded r')
    (h : a.text.toList ++ r = b.text.toList ++ r') : a = b ∧ r = r' := by
  cases a with
  | quoted s =>
    cases b with
    | quoted t => exact ha.readable_quoted hb h
    | word t | number y => exact (hb.ne_quoted rfl h.symm).elim
  | word s | number x =>
    cases b with
    | quoted t => exact (ha.ne_quoted rfl h).elim
    | word t | number y => exact ha.readable_plain hb rfl rfl hr hr' h

/-- An atom starts with none of the characters that structure the text. -/
theorem Valid.exists_cons (ha : a.Valid) :
    ∃ c s, a.text.toList = c :: s ∧ c ≠ ' ' ∧ c ≠ '(' ∧ c ≠ ')' := by
  cases hq : a.isQuoted with
  | false =>
    obtain ⟨hne, hplain⟩ := ha.plain hq
    obtain ⟨c, s, hc⟩ := List.exists_cons_of_ne_nil hne
    refine ⟨c, s, hc, ?_⟩
    rw [hc] at hplain
    have hfirst := hplain c List.mem_cons_self
    refine ⟨?_, ?_, ?_⟩ <;> rintro rfl <;> cases hfirst
  | true =>
    cases a with
    | quoted s => exact ⟨'"', _, toList_quoted s, by decide, by decide, by decide⟩
    | word _ | number _ => cases hq

end Atom

/-! ## S-expressions -/

namespace Sexp

mutual

/-- The text of an s-expression. -/
def text : Sexp → String
  | atom a => a.text
  | node parts => "(" ++ " ".intercalate (texts parts) ++ ")"

/-- The texts of s-expressions. -/
def texts : List Sexp → List String
  | [] => []
  | p :: ps => text p :: texts ps

end

/-- The atoms are valid. -/
inductive Valid : Sexp → Prop
  | atom {a : Atom} (h : a.Valid) : Valid (atom a)
  | node {parts : List Sexp} (h : ∀ p ∈ parts, Valid p) : Valid (node parts)

theorem texts_eq (ps : List Sexp) : texts ps = ps.map text := by
  induction ps with
  | nil => rfl
  | cons p ps ih => rw [texts, ih, List.map_cons]

/-- The text of the parts behind the first one. -/
def rest (ps : List Sexp) : List Char :=
  ps.flatMap fun p => ' ' :: p.text.toList

/-- The text between parentheses. -/
def inner : List Sexp → List Char
  | [] => []
  | p :: ps => p.text.toList ++ rest ps

/-- The parts of an s-expression, with blanks between them. -/
theorem toList_intercalate_texts (ps : List Sexp) :
    (" ".intercalate (texts ps)).toList = inner ps := by
  rw [String.toList_intercalate, texts_eq, List.map_map]
  cases ps with
  | nil => rfl
  | cons p ps =>
    induction ps generalizing p with
    | nil => simp [inner, rest]
    | cons q ps ih =>
      rw [List.map_cons, List.map_cons, List.intercalate_cons_cons, ← List.map_cons, ih,
        List.append_assoc]
      rfl

theorem toList_node (ps : List Sexp) : (node ps).text.toList = '(' :: (inner ps ++ [')']) := by
  rw [text, String.toList_append, String.toList_append, toList_intercalate_texts]
  rfl

variable {s : Sexp} {ps ps' : List Sexp} {r r' : List Char}

/-- An s-expression starts with a character that can follow no other one. -/
theorem Valid.exists_cons (h : s.Valid) : ∃ c cs, s.text.toList = c :: cs ∧ c ≠ ' ' ∧ c ≠ ')' := by
  cases h with
  | atom h =>
    obtain ⟨c, cs, hc, hspace, -, hclose⟩ := h.exists_cons
    exact ⟨c, cs, hc, hspace, hclose⟩
  | @node parts h => exact ⟨'(', _, toList_node parts, by decide, by decide⟩

theorem Valid.ne_close (h : s.Valid) : s.text.toList ++ r ≠ ')' :: r' := by
  obtain ⟨c, cs, hc, -, hclose⟩ := h.exists_cons
  rw [hc]
  exact fun heq => hclose (List.cons.inj heq).1

/-- An atom is no list. -/
theorem ne_node {a : Atom} (ha : a.Valid) : a.text.toList ++ r ≠ (node ps).text.toList ++ r' := by
  obtain ⟨c, cs, hc, -, hopen, -⟩ := ha.exists_cons
  rw [hc, toList_node]
  exact fun heq => hopen (List.cons.inj heq).1

/-- The text tells the s-expression and where it ends. -/
def Readable (s : Sexp) : Prop :=
  ∀ {s' : Sexp} {r r' : List Char}, s'.Valid → Bounded r → Bounded r' →
    s.text.toList ++ r = s'.text.toList ++ r' → s = s' ∧ r = r'

theorem bounded_rest (ps : List Sexp) (r : List Char) : Bounded (rest ps ++ ')' :: r) := by
  cases ps with
  | nil =>
    rintro c ⟨⟩
    exact .inr rfl
  | cons p ps =>
    rintro c ⟨⟩
    exact .inl rfl

/-- Parts that follow each other up to a parenthesis. -/
theorem rest_inj (h : ∀ p ∈ ps, p.Readable) (h' : ∀ p ∈ ps', p.Valid)
    (heq : rest ps ++ ')' :: r = rest ps' ++ ')' :: r') : ps = ps' ∧ r = r' := by
  induction ps generalizing ps' with
  | nil =>
    cases ps' with
    | nil => exact ⟨rfl, (List.cons.inj heq).2⟩
    | cons p' ps' => exact absurd (List.cons.inj heq).1 (by decide)
  | cons p ps ih =>
    cases ps' with
    | nil => exact absurd (List.cons.inj heq).1 (by decide)
    | cons p' ps' =>
      obtain ⟨hp, hps⟩ := List.forall_mem_cons.1 h
      obtain ⟨hp', hps'⟩ := List.forall_mem_cons.1 h'
      have hstep : p.text.toList ++ (rest ps ++ ')' :: r) =
          p'.text.toList ++ (rest ps' ++ ')' :: r') := by
        simpa [rest] using heq
      obtain ⟨rfl, hrest⟩ := hp hp' (bounded_rest ps r) (bounded_rest ps' r') hstep
      obtain ⟨rfl, rfl⟩ := ih hps hps' hrest
      exact ⟨rfl, rfl⟩

/-- The parts between parentheses can be read off the text. -/
theorem inner_inj (hvalid : ∀ p ∈ ps, p.Valid) (h : ∀ p ∈ ps, p.Readable)
    (h' : ∀ p ∈ ps', p.Valid) (heq : inner ps ++ ')' :: r = inner ps' ++ ')' :: r') :
    ps = ps' ∧ r = r' := by
  cases ps with
  | nil =>
    cases ps' with
    | nil => exact ⟨rfl, (List.cons.inj heq).2⟩
    | cons p' ps' =>
      rw [inner, inner, List.append_assoc] at heq
      exact ((h' p' List.mem_cons_self).ne_close heq.symm).elim
  | cons p ps =>
    cases ps' with
    | nil =>
      rw [inner, inner, List.append_assoc] at heq
      exact ((hvalid p List.mem_cons_self).ne_close heq).elim
    | cons p' ps' =>
      obtain ⟨hp, hps⟩ := List.forall_mem_cons.1 h
      obtain ⟨hp', hps'⟩ := List.forall_mem_cons.1 h'
      rw [inner, inner, List.append_assoc, List.append_assoc] at heq
      obtain ⟨rfl, hrest⟩ := hp hp' (bounded_rest ps r) (bounded_rest ps' r') heq
      obtain ⟨rfl, rfl⟩ := rest_inj hps hps' hrest
      exact ⟨rfl, rfl⟩

/-- Unique readability. -/
theorem Valid.readable (h : s.Valid) : s.Readable := by
  induction h with
  | @atom a ha =>
    intro s' r r' hs' hr hr' heq
    cases hs' with
    | @atom b hb =>
      obtain ⟨rfl, rfl⟩ := ha.readable hb hr hr' heq
      exact ⟨rfl, rfl⟩
    | node _ => exact (ne_node ha heq).elim
  | @node ps hps ih =>
    intro s' r r' hs' hr hr' heq
    cases hs' with
    | atom hb => exact (ne_node hb heq.symm).elim
    | @node ps' hps' =>
      rw [toList_node, toList_node, List.cons_append, List.cons_append, List.append_assoc,
        List.append_assoc] at heq
      obtain ⟨rfl, rfl⟩ := inner_inj hps ih hps' (List.cons.inj heq).2
      exact ⟨rfl, rfl⟩

/-- Different s-expressions have different texts. -/
theorem Valid.eq_of_text_eq {s s' : Sexp} (h : s.Valid) (h' : s'.Valid) (heq : s.text = s'.text) :
    s = s' := by
  have hnil : Bounded [] := by
    rintro c ⟨⟩
  exact (h.readable h' hnil hnil (by rw [heq])).1

end Sexp

end LoxLang
