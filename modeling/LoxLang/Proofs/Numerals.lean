import Mathlib
import LoxLang.Decimal.Reading
import LoxLang.Proofs.Rounding
import LoxLang.Scalar

/-!
# The texts of numbers

`Numeral.Spelled` says what the text of a numeral looks like: an optional minus sign, digits, an
optional fraction and an optional exponent. Such a text reads as that numeral and as no other
(`Numeral.Spelled.take`). The text of a double that is no special value is one, it has the sign of
the double, and the number that it stands for rounds to the double (`spelled_numberText`). So the
text tells the double (`numberText_injective`).
-/

namespace LoxLang.Decimal

variable {ds point power s : List Char} {n : Nat} {c : Char} {e : Option Int}

/-! ## Reading a written decimal -/

/-- All digits at the start are taken. -/
theorem takeDigits_append {r : List Char} (hne : ds ≠ []) (hds : ∀ c ∈ ds, isDigit c)
    (hr : ∀ c ∈ r.head?, isDigit c = false) : takeDigits (ds ++ r) = some (ds, r) := by
  have hrest : r.takeWhile isDigit = [] ∧ r.dropWhile isDigit = r := by
    cases r with
    | nil => exact ⟨rfl, rfl⟩
    | cons c r =>
      have hc : ¬isDigit c = true := Bool.eq_false_iff.1 (hr c rfl)
      exact ⟨List.takeWhile_cons_of_neg hc, List.dropWhile_cons_of_neg hc⟩
  unfold takeDigits
  rw [List.takeWhile_append_of_pos hds, List.dropWhile_append_of_pos hds, hrest.1, hrest.2,
    List.append_nil]
  cases ds with
  | nil => exact absurd rfl hne
  | cons => rfl

theorem natValue_eq (ds : List Char) : natValue ds = Nat.ofDigitChars 10 ds 0 :=
  rfl

theorem natValue_append (ds es : List Char) :
    natValue (ds ++ es) = natValue ds * 10 ^ es.length + natValue es := by
  rw [natValue_eq, Nat.ofDigitChars_append, Nat.ofDigitChars_eq_ofDigitChars_zero, mul_comm]
  rfl

theorem natValue_natDigits (n : Nat) : natValue (natDigits n) = n :=
  Nat.ofDigitChars_ten_toDigits

theorem natValue_zeros (n : Nat) : natValue (zeros n) = 0 := by
  induction n with
  | zero => rfl
  | succ n ih => exact ih

/-- A list of digits, of which there is at least one. -/
structure AreDigits (ds : List Char) : Prop where
  nonempty : ds ≠ []
  digit : ∀ c ∈ ds, isDigit c = true

theorem areDigits_natDigits (n : Nat) : AreDigits (natDigits n) where
  nonempty := Nat.toDigits_ne_nil
  digit c h := by
    have hc := Nat.isDigit_of_mem_toDigits (by norm_num) (by norm_num) h
    simp only [Char.isDigit, Bool.and_eq_true, decide_eq_true_eq] at hc
    simp only [isDigit, Bool.and_eq_true, decide_eq_true_eq]
    exact hc

theorem isDigit_of_mem_zeros (h : c ∈ zeros n) : isDigit c = true := by
  rw [List.eq_of_mem_replicate h]
  rfl

theorem AreDigits.append_zeros (h : AreDigits ds) (n : Nat) :
    AreDigits (ds ++ zeros n) where
  nonempty := List.append_ne_nil_of_left_ne_nil h.nonempty _
  digit _ hc := (List.mem_append.1 hc).elim (h.digit _) isDigit_of_mem_zeros

theorem AreDigits.zeros_append (h : AreDigits ds) (n : Nat) :
    AreDigits (zeros n ++ ds) where
  nonempty := List.append_ne_nil_of_right_ne_nil _ h.nonempty
  digit _ hc := (List.mem_append.1 hc).elim isDigit_of_mem_zeros (h.digit _)

theorem AreDigits.take (h : AreDigits ds) (hn : 0 < n) :
    AreDigits (ds.take n) where
  nonempty he := (List.take_eq_nil_iff.1 he).elim hn.ne' h.nonempty
  digit _ hc := h.digit _ (List.mem_of_mem_take hc)

theorem AreDigits.drop (h : AreDigits ds) (hn : n < ds.length) :
    AreDigits (ds.drop n) where
  nonempty he := absurd (List.drop_eq_nil_iff.1 he) (by omega)
  digit _ hc := h.digit _ (List.mem_of_mem_drop hc)

/-- The text of a fraction, with its point. -/
inductive FractionSpelled : Option (List Char) → List Char → Prop
  | none : FractionSpelled none []
  | some {ds : List Char} (h : AreDigits ds) : FractionSpelled (some ds) ('.' :: ds)

/-- The text of an exponent, with its letter and its sign. -/
inductive ExponentSpelled : Option Int → List Char → Prop
  | none : ExponentSpelled none []
  | up {ds : List Char} (h : AreDigits ds) : ExponentSpelled (some (natValue ds)) ('e' :: '+' :: ds)
  | down {ds : List Char} (h : AreDigits ds) :
      ExponentSpelled (some (-natValue ds)) ('e' :: '-' :: ds)

/-- The text of a numeral. -/
inductive Numeral.Spelled : Numeral → List Char → Prop
  | intro (negative : Bool) {whole : List Char} {fraction : Option (List Char)}
      {exponent : Option Int} {point power : List Char} (hwhole : AreDigits whole)
      (hfraction : FractionSpelled fraction point) (hexponent : ExponentSpelled exponent power) :
      Spelled ⟨negative, whole, fraction, exponent⟩
        ((if negative then ['-'] else []) ++ (whole ++ (point ++ power)))

theorem AreDigits.takeDigits {r : List Char} (h : AreDigits ds)
    (hr : ∀ c ∈ r.head?, isDigit c = false) : takeDigits (ds ++ r) = some (ds, r) :=
  takeDigits_append h.nonempty h.digit hr

theorem ExponentSpelled.head (h : ExponentSpelled e power) : ∀ c ∈ power.head?, c = 'e' := by
  cases h <;> simp

theorem FractionSpelled.head {f : Option (List Char)} (h : FractionSpelled f point)
    (he : ExponentSpelled e power) : ∀ c ∈ (point ++ power).head?, isDigit c = false := by
  cases h with
  | none =>
    intro c hc
    rw [he.head c hc]
    rfl
  | some =>
    intro c hc
    cases hc
    rfl

/-- The fraction is read as it is spelled. -/
theorem FractionSpelled.take {f : Option (List Char)} (h : FractionSpelled f point)
    (he : ExponentSpelled e power) : takeFraction (point ++ power) = (f, power) := by
  have hpower := he.head
  cases h with
  | none =>
    cases he <;> rfl
  | some h =>
    have hdigits := h.takeDigits (r := power) fun c hc => by
      rw [hpower c hc]
      rfl
    rw [List.cons_append, takeFraction, hdigits]

theorem ExponentSpelled.take (h : ExponentSpelled e power) : takeExponent power = (e, []) := by
  cases h with
  | none => rfl
  | up h | down h =>
    have hdigits := h.takeDigits (r := []) (by simp)
    rw [List.append_nil] at hdigits
    simp [takeExponent, hdigits]

/-- A numeral without a sign. -/
theorem Numeral.take_cons {rest : List Char} (hminus : c ≠ '-') :
    Numeral.take (c :: rest) = (takeDigits (c :: rest)).map fun p =>
      let fraction := takeFraction p.2
      let exponent := takeExponent fraction.2
      (⟨false, p.1, fraction.1, exponent.1⟩, exponent.2) := by
  unfold Numeral.take
  split
  next negative s heq =>
    split at heq
    · next h => exact absurd (List.cons.inj h).1 hminus
    · cases heq
      cases takeDigits (c :: rest) <;> rfl

/-- What starts with another character than a digit or a minus sign is no numeral. -/
theorem Numeral.take_eq_none {rest : List Char} (hminus : c ≠ '-') (hdigit : isDigit c = false) :
    Numeral.take (c :: rest) = none := by
  have hdigits : takeDigits (c :: rest) = none := by
    rw [takeDigits, List.takeWhile_cons_of_neg (Bool.eq_false_iff.1 hdigit)]
  rw [take_cons hminus, hdigits, Option.map_none]

/-- The text of a numeral reads as that numeral. -/
theorem Numeral.Spelled.take {n : Numeral} (h : n.Spelled s) : Numeral.take s = some (n, []) := by
  cases h with
  | @intro negative whole fraction exponent point power hwhole hfraction hexponent =>
    have hdigits := hwhole.takeDigits (hfraction.head hexponent)
    cases negative with
    | true =>
      simp only [Numeral.take, if_true, List.cons_append, List.nil_append, hdigits,
        hfraction.take hexponent, hexponent.take]
    | false =>
      obtain ⟨c, rest, rfl⟩ := List.exists_cons_of_ne_nil hwhole.nonempty
      have hdash : c ≠ '-' := by
        rintro rfl
        exact absurd (hwhole.digit _ List.mem_cons_self) (by decide)
      show Numeral.take (c :: (rest ++ (point ++ power))) = _
      rw [List.cons_append] at hdigits
      rw [Numeral.take_cons hdash, hdigits, Option.map_some]
      simp only [hfraction.take hexponent, hexponent.take]

/-- What holds of digits and of the signs in a numeral holds of all its characters. -/
theorem Numeral.Spelled.forall_mem {P : Char → Prop} {n : Numeral} (h : n.Spelled s)
    (hdigit : ∀ c, isDigit c = true → P c) (hsign : ∀ c ∈ ['-', '+', '.', 'e'], P c) :
    ∀ c ∈ s, P c := by
  obtain ⟨negative, hwhole, hfraction, hexponent⟩ := h
  have hdigits {ds : List Char} (h : AreDigits ds) : ∀ c ∈ ds, P c :=
    fun c hc => hdigit c (h.digit c hc)
  have hminus : P '-' := hsign _ (by simp)
  refine List.forall_mem_append.2 ⟨?_, List.forall_mem_append.2 ⟨hdigits hwhole,
    List.forall_mem_append.2 ⟨?_, ?_⟩⟩⟩
  · cases negative <;> simp [hminus]
  · cases hfraction with
    | none => simp
    | some h => exact List.forall_mem_cons.2 ⟨hsign _ (by simp), hdigits h⟩
  · have hletter : P 'e' := hsign _ (by simp)
    cases hexponent with
    | none => simp
    | up h => exact List.forall_mem_cons.2 ⟨hletter, List.forall_mem_cons.2
        ⟨hsign _ (by simp), hdigits h⟩⟩
    | down h => exact List.forall_mem_cons.2 ⟨hletter, List.forall_mem_cons.2
        ⟨hminus, hdigits h⟩⟩

/-- The decimal that a numeral stands for, its sign left out. -/
def Numeral.decimal (n : Numeral) : Digits :=
  let fraction := n.fraction.getD []
  ⟨natValue (n.whole ++ fraction), n.exponent.getD 0 - fraction.length⟩

/-- A text for a decimal, without a sign. -/
def Spells (s : List Char) (q : Rat) : Prop :=
  ∃ n : Numeral, n.Spelled s ∧ n.negative = false ∧ n.decimal.value = q

theorem Spells.intro {whole : List Char} {fraction : Option (List Char)} {exponent : Option Int}
    {q : Rat} (hwhole : AreDigits whole) (hfraction : FractionSpelled fraction point)
    (hexponent : ExponentSpelled exponent power) (hs : s = whole ++ (point ++ power))
    (hq : Digits.value ⟨natValue (whole ++ fraction.getD []),
      exponent.getD 0 - (fraction.getD []).length⟩ = q) : Spells s q :=
  ⟨⟨false, whole, fraction, exponent⟩, hs ▸ .intro false hwhole hfraction hexponent, rfl, hq⟩

theorem spells_natDigits (n : Nat) : Spells (natDigits n) n := by
  refine .intro (areDigits_natDigits n) .none .none (by simp) ?_
  simp [Digits.value, natValue_natDigits]

/-- The positional form spells its value. -/
theorem spells_positional (hds : AreDigits ds) (point : Int) :
    Spells (Scalar.numberLayout.positional ds point)
      (Digits.value ⟨natValue ds, point - ds.length⟩) := by
  have hzero : AreDigits ['0'] := ⟨by simp, by simp [isDigit]⟩
  unfold Layout.positional
  split
  · refine .intro hzero (.some (hds.zeros_append (-point).toNat)) .none (by simp) ?_
    have hwhole : natValue (['0'] ++ (zeros (-point).toNat ++ ds)) = natValue ds := by
      rw [natValue_append, natValue_append, natValue_zeros]
      simp [natValue]
    have hlength : (0 : Int) - (zeros (-point).toNat ++ ds).length = point - ds.length := by
      rw [List.length_append, zeros, List.length_replicate]
      omega
    rw [Option.getD_some, Option.getD_none, hwhole, hlength]
  split
  · next hpos hinside =>
    have hsome : 0 < point.toNat := by omega
    refine .intro (hds.take hsome) (.some (hds.drop hinside)) .none (by simp) ?_
    have hlength : (0 : Int) - (ds.drop point.toNat).length = point - ds.length := by
      rw [List.length_drop]
      omega
    rw [Option.getD_some, Option.getD_none, List.take_append_drop, hlength]
  · next hpos houtside =>
    refine .intro (hds.append_zeros (point.toNat - ds.length)) (.some hzero) .none
      (by simp [Scalar.numberLayout]) ?_
    have hpower : (natValue (ds ++ zeros (point.toNat - ds.length) ++ ['0']) : Rat) =
        natValue ds * 10 ^ (point - ds.length + 1) := by
      have hlength : point - ds.length + 1 = (point.toNat - ds.length + 1 : Nat) := by omega
      rw [natValue_append, natValue_append, natValue_zeros, zeros, List.length_replicate, hlength,
        zpow_natCast]
      simp [natValue, pow_succ, mul_assoc]
    simp only [Digits.value, Option.getD_some, Option.getD_none, hpower, List.length_singleton]
    rw [mul_assoc, ← zpow_add₀ (by norm_num)]
    congr 2
    push_cast
    ring

/-- An exponent is spelled with a sign and at least so many digits. -/
theorem spelled_exponent (width : Nat) (e : Int) :
    ExponentSpelled (some e) ('e' :: (if e < 0 then '-' else '+') ::
      (zeros (width - (natDigits e.natAbs).length) ++ natDigits e.natAbs)) := by
  have hdigits := (areDigits_natDigits e.natAbs).zeros_append (width - (natDigits e.natAbs).length)
  have hvalue : natValue (zeros (width - (natDigits e.natAbs).length) ++ natDigits e.natAbs) =
      e.natAbs := by
    rw [natValue_append, natValue_zeros, natValue_natDigits, zero_mul, zero_add]
  split
  · next hneg =>
    have h := ExponentSpelled.down hdigits
    rwa [hvalue, (by omega : -(e.natAbs : Int) = e)] at h
  · next hneg =>
    have h := ExponentSpelled.up hdigits
    rwa [hvalue, (by omega : (e.natAbs : Int) = e)] at h

/-- The scientific form spells its value. -/
theorem spells_scientific (hds : AreDigits ds) (e : Int) :
    Spells (Scalar.numberLayout.scientific ds e)
      (Digits.value ⟨natValue ds, e - (ds.length - 1 : Nat)⟩) := by
  have hexponent := spelled_exponent 2 e
  have hjoin : ds.take 1 ++ ds.drop 1 = ds := List.take_append_drop 1 ds
  unfold Layout.scientific
  dsimp only
  split
  · next hnone =>
    refine .intro (hds.take one_pos) .none hexponent (by simp [Scalar.numberLayout]) ?_
    rw [hnone, List.append_nil] at hjoin
    have hlength : ds.length - 1 = 0 := by simpa using congrArg List.length hnone
    rw [Option.getD_none, Option.getD_some, List.append_nil, hjoin, hlength]
    rfl
  · next hsome =>
    have hinside : 1 < ds.length := by
      by_contra hle
      exact hsome (List.drop_eq_nil_of_le (by omega))
    refine .intro (hds.take one_pos) (.some (hds.drop hinside)) hexponent
      (by simp [Scalar.numberLayout]) ?_
    rw [Option.getD_some, Option.getD_some, hjoin, List.length_drop]

/-- A decimal is written so that it reads back. -/
theorem spells_place (d : Digits) : Spells (Scalar.numberLayout.place d) d.value := by
  have hds := areDigits_natDigits d.digits
  have hlength := List.length_pos_iff.2 hds.nonempty
  unfold Layout.place
  dsimp only
  split
  · have h := spells_positional hds (d.exponent + (natDigits d.digits).length - 1 + 1)
    rwa [natValue_natDigits, (by omega : d.exponent + ((natDigits d.digits).length : Int) - 1 + 1 -
      (natDigits d.digits).length = d.exponent)] at h
  · have h := spells_scientific hds (d.exponent + (natDigits d.digits).length - 1)
    rwa [natValue_natDigits, (by omega : d.exponent + ((natDigits d.digits).length : Int) - 1 -
      ((natDigits d.digits).length - 1 : Nat) = d.exponent)] at h

/-- The sign of a number stands in front of its text. -/
theorem Spells.signed {q : Rat} (h : Spells s q) (negative : Bool) :
    ∃ n : Numeral, n.Spelled (if negative then '-' :: s else s) ∧ n.negative = negative ∧
      n.decimal.value = q := by
  obtain ⟨n, ⟨_, hwhole, hfraction, hexponent⟩, hsign, hq⟩ := h
  cases hsign
  refine ⟨⟨negative, _, _, _⟩, ?_, rfl, hq⟩
  have hs := Numeral.Spelled.intro negative hwhole hfraction hexponent
  cases negative <;> exact hs

/-- What the text of a double reads as. -/
theorem spelled_numberText {x : Float} (hx : isSpecial x.toBits = false) :
    ∃ n : Numeral, n.Spelled (Scalar.numberText x).toList ∧
      n.negative = isNegative x.toBits ∧ Rounds (n.decimal.value * leasts) (rank x.toBits) := by
  unfold Scalar.numberText
  dsimp only
  rw [hx]
  simp only [Bool.false_eq_true, if_false]
  split
  · next whole hwhole =>
    obtain ⟨n, hn, hsign, hvalue⟩ := (spells_natDigits whole).signed (isNegative x.toBits)
    refine ⟨n, by rwa [String.toList_ofList], hsign, ?_⟩
    rw [hvalue, natural?_value hwhole]
    exact .of_exact x.toBits
  · next hnone =>
    have hzero : (Binary.ofBits x.toBits).mantissa ≠ 0 := by
      intro hzero
      simp [Binary.natural?, Binary.ratio, hzero] at hnone
    obtain ⟨n, hn, hsign, hvalue⟩ :=
      (spells_place (Binary.ofBits x.toBits).shortest).signed (isNegative x.toBits)
    refine ⟨n, ?_, hsign, ?_⟩
    · simp only [Scalar.fractionText, Layout.render, hx, hzero, Bool.false_and, Bool.false_eq_true,
        if_false, String.toList_ofList]
      exact hn
    · rw [hvalue]
      exact rounds_shortest x.toBits

/-- Different doubles have different texts. -/
theorem numberText_injective {x y : Float} (hx : isSpecial x.toBits = false)
    (hy : isSpecial y.toBits = false) (h : Scalar.numberText x = Scalar.numberText y) : x = y := by
  obtain ⟨n, hn, hnx, hrx⟩ := spelled_numberText hx
  obtain ⟨m, hm, hmy, hry⟩ := spelled_numberText hy
  have hread := hn.take
  rw [h, hm.take] at hread
  cases hread
  exact Float.toBits_inj.1 (eq_of_rank_eq (hnx.symm.trans hmy) (hrx.unique hry))

end LoxLang.Decimal
