import HeapSummary.Text.Numeral
import HeapSummary.Text.Blank
import HeapSummary.Proofs.Outcome
import Mathlib.Data.List.TakeWhile
import Mathlib.Data.Nat.Digits.Defs

/-!
# What blanks and numerals mean

Trimming leaves the one part of a text that has only blanks around it and neither begins nor ends with one. Reading a
numeral gives the number that its digits denote by place value, and it succeeds just if that number is within the limit.
The limit is checked at every digit. The number read so far never exceeds the whole one, so this is no stricter than
checking it once.
-/

namespace HeapSummary.Text

variable {cs core : List Char} {c : Char} {n limit acc : Nat} {z : Int} {overflow : NumeralError}

/-! ### Blanks -/

/-- `core` is `cs` without the blanks at both ends. -/
structure Strips (cs core : List Char) : Prop where
  around : ∃ before after, cs = before ++ core ++ after ∧ ∀ c, c ∈ before ∨ c ∈ after → isBlank c = true
  first : ∀ c, core.head? = some c → isBlank c = false
  last : ∀ c, core.getLast? = some c → isBlank c = false

theorem dropWhile_isBlank_of_head (h : ∀ c, cs.head? = some c → isBlank c = false) : cs.dropWhile isBlank = cs := by
  cases cs with
  | nil => rfl
  | cons c rest => rw [List.dropWhile_cons, h c rfl, if_neg Bool.false_ne_true]

theorem isBlank_of_head_dropWhile (cs : List Char) (h : (cs.dropWhile isBlank).head? = some c) : isBlank c = false := by
  have hhead := List.head?_dropWhile_not isBlank cs
  rwa [h] at hhead

theorem trim_of_around {before after : List Char} (hbefore : ∀ c ∈ before, isBlank c = true)
    (hafter : ∀ c ∈ after, isBlank c = true) (hfirst : ∀ c, core.head? = some c → isBlank c = false)
    (hlast : ∀ c, core.getLast? = some c → isBlank c = false) : trim (before ++ core ++ after) = core := by
  have hleft : (before ++ core ++ after).dropWhile isBlank = (core ++ after).dropWhile isBlank := by
    rw [List.append_assoc, List.dropWhile_append_of_pos hbefore]
  rw [trim, hleft]
  cases hcore : core with
  | nil =>
    rw [List.nil_append, List.dropWhile_eq_nil_iff.2 hafter]
    rfl
  | cons c rest =>
    have hkeep : (c :: rest ++ after).dropWhile isBlank = c :: rest ++ after :=
      dropWhile_isBlank_of_head fun d hd => hfirst d (hcore ▸ hd)
    have hreverse : ∀ d ∈ after.reverse, isBlank d = true := fun d hd => hafter d (List.mem_reverse.1 hd)
    have hend : ∀ d, (c :: rest).reverse.head? = some d → isBlank d = false := fun d hd =>
      hlast d (hcore ▸ List.head?_reverse ▸ hd)
    rw [hkeep, List.reverse_append, List.dropWhile_append_of_pos hreverse, dropWhile_isBlank_of_head hend,
      List.reverse_reverse]

theorem strips_trim (cs : List Char) : Strips cs (trim cs) := by
  have hright : cs.dropWhile isBlank =
      trim cs ++ ((cs.dropWhile isBlank).reverse.takeWhile isBlank).reverse := by
    rw [trim, ← List.reverse_append, List.takeWhile_append_dropWhile, List.reverse_reverse]
  have hall : cs = cs.takeWhile isBlank ++ trim cs ++ ((cs.dropWhile isBlank).reverse.takeWhile isBlank).reverse := by
    rw [List.append_assoc, ← hright, List.takeWhile_append_dropWhile]
  refine ⟨⟨_, _, hall, fun c hc => ?_⟩, fun c hc => ?_, fun c hc => ?_⟩
  · rcases hc with hc | hc
    · exact List.mem_takeWhile_imp hc
    · exact List.mem_takeWhile_imp (List.mem_reverse.1 hc)
  · apply isBlank_of_head_dropWhile cs
    rw [hright, List.head?_append, hc, Option.some_or]
  · apply isBlank_of_head_dropWhile (cs.dropWhile isBlank).reverse
    rw [← hc, trim, List.getLast?_reverse]

theorem strips_iff : Strips cs core ↔ trim cs = core := by
  constructor
  · rintro ⟨⟨before, after, rfl, hblank⟩, hfirst, hlast⟩
    exact trim_of_around (fun c hc => hblank c (.inl hc)) (fun c hc => hblank c (.inr hc)) hfirst hlast
  · rintro rfl
    exact strips_trim cs

/-! ### Digits -/

def digit (c : Char) : Nat := c.toNat - '0'.toNat

/-- What digits denote by place value, the last one counting for least. -/
def placeValue (cs : List Char) : Nat := Nat.ofDigits 10 (cs.map digit).reverse

theorem placeValue_cons (c : Char) (cs : List Char) :
    placeValue (c :: cs) = digit c * 10 ^ cs.length + placeValue cs := by
  rw [placeValue, List.map_cons, Nat.ofDigits_reverse_cons, List.length_map, placeValue, Nat.mul_comm, Nat.add_comm]

theorem readDigits_of_digit (hc : c.isDigit = true) : readDigits limit overflow acc (c :: cs) =
    if limit < 10 * acc + digit c then .error overflow else readDigits limit overflow (10 * acc + digit c) cs := by
  rw [readDigits, if_pos hc]
  rfl

/-- The digits read so far move up by as many places as there are digits to come. -/
theorem readDigits_eq_ok (hacc : acc ≤ limit) : readDigits limit overflow acc cs = .ok n ↔
    (∀ c ∈ cs, c.isDigit = true) ∧ n = acc * 10 ^ cs.length + placeValue cs ∧ n ≤ limit := by
  induction cs generalizing acc with
  | nil =>
    simp only [readDigits, placeValue, List.map_nil, List.reverse_nil, Nat.ofDigits_nil, List.length_nil, Nat.pow_zero,
      Nat.mul_one, Nat.add_zero, Except.ok.injEq]
    constructor
    · rintro rfl
      exact ⟨fun _ hc => absurd hc List.not_mem_nil, rfl, hacc⟩
    · exact fun h => h.2.1.symm
  | cons c cs ih =>
    have hshift : acc * 10 ^ (c :: cs).length + placeValue (c :: cs) =
        (10 * acc + digit c) * 10 ^ cs.length + placeValue cs := by
      rw [placeValue_cons, List.length_cons, Nat.pow_succ, Nat.add_mul]
      ring
    rw [hshift, List.forall_mem_cons]
    cases hc : c.isDigit with
    | false =>
      rw [readDigits, if_neg (by simp [hc])]
      exact iff_of_false nofun fun h => Bool.false_ne_true h.1.1
    | true =>
      rw [readDigits_of_digit hc]
      split
      · rename_i hlimit
        -- the number read so far is a lower bound of the whole one
        have hle : 10 * acc + digit c ≤ (10 * acc + digit c) * 10 ^ cs.length :=
          Nat.le_mul_of_pos_right _ (Nat.pow_pos (by decide))
        refine iff_of_false nofun ?_
        rintro ⟨_, rfl, hn⟩
        omega
      · rename_i hlimit
        rw [ih (Nat.not_lt.1 hlimit), and_iff_right rfl]

/-- One or more decimal digits, and the number that they denote. -/
structure Decimal (cs : List Char) (n : Nat) : Prop where
  nonempty : cs ≠ []
  digits : ∀ c ∈ cs, c.isDigit = true
  value : n = placeValue cs

theorem readDigits1_eq_ok : readDigits1 limit overflow cs = .ok n ↔ Decimal cs n ∧ n ≤ limit := by
  rw [readDigits1]
  split
  · rename_i hempty
    exact iff_of_false nofun fun h => h.1.nonempty (List.isEmpty_iff.1 hempty)
  · rename_i hsome
    rw [readDigits_eq_ok (Nat.zero_le limit), Nat.zero_mul, Nat.zero_add]
    constructor
    · rintro ⟨hdigits, hvalue, hle⟩
      exact ⟨⟨fun hnil => hsome (List.isEmpty_iff.2 hnil), hdigits, hvalue⟩, hle⟩
    · rintro ⟨h, hle⟩
      exact ⟨h.digits, h.value, hle⟩

theorem Decimal.isDigit_head (h : Decimal (c :: cs) n) : c.isDigit = true := h.digits c List.mem_cons_self

/-! ### Signs -/

/-- A decimal numeral, maybe with a plus sign in front. -/
inductive Unsigned : List Char → Nat → Prop
  | plain {cs : List Char} {n : Nat} (h : Decimal cs n) : Unsigned cs n
  | plus {cs : List Char} {n : Nat} (h : Decimal cs n) : Unsigned ('+' :: cs) n

/-- A decimal numeral, maybe with a sign in front. -/
inductive Signed : List Char → Int → Prop
  | unsigned {cs : List Char} {n : Nat} (h : Unsigned cs n) : Signed cs n
  | minus {cs : List Char} {n : Nat} (h : Decimal cs n) : Signed ('-' :: cs) (-n)

theorem unsigned_plus_iff : Unsigned ('+' :: cs) n ↔ Decimal cs n := by
  refine ⟨fun h => ?_, .plus⟩
  cases h with
  | plain h => exact absurd h.isDigit_head (by decide)
  | plus h => exact h

theorem unsigned_iff_of_ne (hc : c ≠ '+') : Unsigned (c :: cs) n ↔ Decimal (c :: cs) n := by
  refine ⟨fun h => ?_, .plain⟩
  cases h with
  | plain h => exact h
  | plus h => exact absurd rfl hc

theorem readUnsigned_of_ne (hc : c ≠ '+') :
    readUnsigned (c :: cs) = readDigits1 maxUnsigned .tooLarge (c :: cs) := by
  unfold readUnsigned
  split <;> simp_all

theorem readUnsigned_eq_ok : readUnsigned cs = .ok n ↔ Unsigned cs n ∧ n < 2 ^ 64 := by
  have hlimit : n < 2 ^ 64 ↔ n ≤ maxUnsigned := Nat.lt_succ_iff
  rw [hlimit]
  cases cs with
  | nil =>
    refine iff_of_false nofun fun h => ?_
    cases h.1 with
    | plain h => exact h.nonempty rfl
  | cons c cs =>
    by_cases hc : c = '+'
    · subst hc
      rw [unsigned_plus_iff]
      exact readDigits1_eq_ok
    · rw [readUnsigned_of_ne hc, unsigned_iff_of_ne hc, readDigits1_eq_ok]

theorem signed_minus_iff : Signed ('-' :: cs) z ↔ ∃ n : Nat, Decimal cs n ∧ z = -n := by
  constructor
  · intro h
    cases h with
    | unsigned h => exact absurd ((unsigned_iff_of_ne (by decide)).1 h).isDigit_head (by decide)
    | minus h => exact ⟨_, h, rfl⟩
  · rintro ⟨n, h, rfl⟩
    exact .minus h

theorem signed_iff_of_ne (hc : c ≠ '-') : Signed (c :: cs) z ↔ ∃ n : Nat, Unsigned (c :: cs) n ∧ z = n := by
  constructor
  · intro h
    cases h with
    | unsigned h => exact ⟨_, h, rfl⟩
    | minus h => exact absurd rfl hc
  · rintro ⟨n, h, rfl⟩
    exact .unsigned h

theorem readSigned_of_ne (hplus : c ≠ '+') (hminus : c ≠ '-') : readSigned (c :: cs) =
    readDigits1 maxSigned .tooLarge (c :: cs) >>= fun n => pure (Int.ofNat n) := by
  unfold readSigned
  split <;> simp_all

theorem bind_readDigits1_eq_ok {f : Nat → Int} :
    (readDigits1 limit overflow cs >>= fun n => pure (f n)) = .ok z ↔ ∃ n, Decimal cs n ∧ n ≤ limit ∧ z = f n := by
  simp only [Outcome.bind_eq_ok, Outcome.pure_eq_ok, readDigits1_eq_ok, and_assoc, eq_comm (a := z)]

theorem exists_within_iff {P : Nat → Prop} {f : Nat → Int} (h : ∀ n, n ≤ limit ↔ -2 ^ 63 ≤ f n ∧ f n < 2 ^ 63) :
    (∃ n, P n ∧ n ≤ limit ∧ z = f n) ↔ (∃ n, P n ∧ z = f n) ∧ -2 ^ 63 ≤ z ∧ z < 2 ^ 63 := by
  constructor
  · rintro ⟨n, hn, hle, rfl⟩
    exact ⟨⟨n, hn, rfl⟩, (h n).1 hle⟩
  · rintro ⟨⟨n, hn, rfl⟩, hz⟩
    exact ⟨n, hn, (h n).2 hz, rfl⟩

theorem readSigned_eq_ok : readSigned cs = .ok z ↔ Signed cs z ∧ -2 ^ 63 ≤ z ∧ z < 2 ^ 63 := by
  have hup : ∀ n : Nat, n ≤ maxSigned ↔ -2 ^ 63 ≤ (n : Int) ∧ (n : Int) < 2 ^ 63 := fun n => by
    unfold maxSigned
    omega
  -- there is one more negative number than there are positive ones
  have hdown : ∀ n : Nat, n ≤ maxSigned + 1 ↔ -2 ^ 63 ≤ -(n : Int) ∧ -(n : Int) < 2 ^ 63 := fun n => by
    unfold maxSigned
    omega
  cases cs with
  | nil =>
    refine iff_of_false nofun ?_
    rintro ⟨hsigned, _⟩
    cases hsigned with
    | unsigned hplain =>
      cases hplain with
      | plain h => exact h.nonempty rfl
  | cons c cs =>
    by_cases hminus : c = '-'
    · subst hminus
      rw [signed_minus_iff, ← exists_within_iff hdown]
      exact bind_readDigits1_eq_ok
    · rw [signed_iff_of_ne hminus, ← exists_within_iff hup]
      by_cases hplus : c = '+'
      · subst hplus
        simp only [unsigned_plus_iff]
        exact bind_readDigits1_eq_ok
      · simp only [unsigned_iff_of_ne hplus]
        rw [readSigned_of_ne hplus hminus]
        exact bind_readDigits1_eq_ok

end HeapSummary.Text
