import HeapSummary.Total

/-!
# Bits in word sequences

A set of numbers is kept as a sequence of 64-bit words: number `i` is bit `i % 64` of word `i / 64`. Sequences of
different lengths may hold the same numbers, and exactly one of them is trimmed, that is, does not end in a zero word.

Each operation has one lemma on `bit`, each update one on what it tells, and the count is the length of the list; nothing
else about words is used outside this module.
-/

namespace HeapSummary.Words

/-! ### One word -/

/-- Whether number `i < 64` is in the word. -/
def wordBit (w : UInt64) (i : Nat) : Bool := w.toBitVec.getLsbD i

/-- The word that holds number `i` alone. -/
def mask (i : Nat) : UInt64 := ⟨BitVec.twoPow 64 i⟩

/-- The number of zeros below the lowest bit. The zero word has none. -/
def trailingZeros? (w : UInt64) : Option Nat := (List.range 64).find? (wordBit w)

/-- How many numbers are in the word. -/
def countOnes (w : UInt64) : Nat := w.toBitVec.cpop.toNat

/-- Lists the lowest number and clears its bit until the word is zero, for at most `n` rounds. -/
def scan : Nat → UInt64 → List Nat
  | 0, _ => []
  | n + 1, w =>
    match trailingZeros? w with
    | none => []
    | some i => i :: scan n (w &&& (w - 1))

/-- The numbers of one word, ascending. A word has no more of them than there are rounds (`wordMembers_clear`). -/
def wordMembers (w : UInt64) : List Nat := scan 64 w

theorem word_ext {u v : UInt64} (h : ∀ i < 64, wordBit u i = wordBit v i) : u = v :=
  UInt64.toBitVec_inj.1 (BitVec.eq_of_getLsbD_eq fun i hi => h i hi)

@[simp] theorem wordBit_zero (i : Nat) : wordBit 0 i = false := by simp [wordBit]

@[simp] theorem wordBit_or (u v : UInt64) (i : Nat) : wordBit (u ||| v) i = (wordBit u i || wordBit v i) := by
  simp [wordBit]

@[simp] theorem wordBit_and (u v : UInt64) (i : Nat) : wordBit (u &&& v) i = (wordBit u i && wordBit v i) := by
  simp [wordBit]

theorem wordBit_not (u : UInt64) {i : Nat} (h : i < 64) : wordBit (~~~u) i = !wordBit u i := by
  simp [wordBit, h]

theorem wordBit_mask {i j : Nat} (hj : j < 64) : wordBit (mask i) j = decide (j = i) := by
  simp only [wordBit, mask, BitVec.getLsbD_twoPow]
  by_cases h : j = i
  · subst h
    simp [hj]
  · have : ¬ i = j := fun e => h e.symm
    simp [h, this]

theorem word_ne_zero_iff {w : UInt64} : w ≠ 0 ↔ ∃ i < 64, wordBit w i = true := by
  constructor
  · intro h
    refine Classical.byContradiction fun hno => h (word_ext fun i hi => ?_)
    cases hb : wordBit w i
    · simp
    · exact absurd ⟨i, hi, hb⟩ hno
  · rintro ⟨i, _, hb⟩ rfl
    simp at hb

theorem mask_ne_zero {i : Nat} (h : i < 64) : mask i ≠ 0 :=
  word_ne_zero_iff.2 ⟨i, h, by simp [wordBit_mask h]⟩

theorem word_eq_zero_iff {w : UInt64} : w = 0 ↔ ∀ i < 64, wordBit w i = false := by
  constructor
  · rintro rfl i _
    simp
  · intro h
    exact word_ext fun i hi => by simp [h i hi]

theorem and_not_eq_zero_iff {u v : UInt64} :
    u &&& ~~~v = 0 ↔ ∀ i < 64, wordBit u i = true → wordBit v i = true := by
  rw [word_eq_zero_iff]
  refine forall_congr' fun i => forall_congr' fun hi => ?_
  rw [wordBit_and, wordBit_not v hi]
  cases wordBit u i <;> cases wordBit v i <;> simp

theorem or_eq_left_iff {u v : UInt64} : u ||| v = u ↔ v &&& ~~~u = 0 := by
  rw [and_not_eq_zero_iff]
  constructor
  · intro h i hi hv
    have := congrArg (wordBit · i) h
    simpa [hv] using this.symm
  · intro h
    refine word_ext fun i hi => ?_
    have := h i hi
    cases hv : wordBit v i <;> simp_all

theorem and_mask_ne_zero_iff {w : UInt64} {i : Nat} (hi : i < 64) : w &&& mask i ≠ 0 ↔ wordBit w i = true := by
  rw [word_ne_zero_iff]
  constructor
  · rintro ⟨j, hj, hb⟩
    rw [wordBit_and, wordBit_mask hj, Bool.and_eq_true, decide_eq_true_iff] at hb
    exact hb.2 ▸ hb.1
  · intro hb
    exact ⟨i, hi, by simp [wordBit_mask hi, hb]⟩

/-! ### The lowest bit -/

theorem lt_of_wordBit {w : UInt64} {i : Nat} (hb : wordBit w i = true) : i < 64 := BitVec.lt_of_getLsbD hb

@[simp] theorem trailingZeros?_zero : trailingZeros? 0 = none := by
  simp [trailingZeros?]

theorem trailingZeros?_eq_some_iff {w : UInt64} {t : Nat} :
    trailingZeros? w = some t ↔ wordBit w t = true ∧ ∀ j < t, wordBit w j = false := by
  simp only [trailingZeros?, List.find?_range_eq_some, List.mem_range, Bool.not_eq_true']
  exact ⟨fun h => ⟨h.1, h.2.2⟩, fun h => ⟨h.1, lt_of_wordBit h.1, h.2⟩⟩

theorem exists_trailingZeros {w : UInt64} (h : w ≠ 0) : ∃ t, trailingZeros? w = some t := by
  obtain ⟨i, hi, hb⟩ := word_ne_zero_iff.1 h
  exact Option.isSome_iff_exists.1 (List.find?_isSome.2 ⟨i, List.mem_range.2 hi, hb⟩)

theorem exists_eq_odd_shiftLeft {n : Nat} (h : n ≠ 0) : ∃ t q, n = (2 * q + 1) <<< t := by
  induction n using Nat.strongRecOn with
  | ind n ih =>
    rcases Nat.mod_two_eq_zero_or_one n with heven | hodd
    · obtain ⟨t, q, hhalf⟩ := ih (n / 2) (by omega) (by omega)
      refine ⟨t + 1, q, ?_⟩
      rw [Nat.shiftLeft_succ, ← hhalf]
      omega
    · exact ⟨0, n / 2, by rw [Nat.shiftLeft_zero]; omega⟩

theorem testBit_odd_shiftLeft (q t j : Nat) :
    ((2 * q + 1) <<< t).testBit j = if j < t + 1 then decide (t = j) else q.testBit (j - (t + 1)) := by
  have hlt : 2 ^ t < 2 ^ (t + 1) := Nat.pow_lt_pow_succ (by decide)
  have heq : (2 * q + 1) <<< t = 2 ^ (t + 1) * q + 2 ^ t := by
    rw [Nat.shiftLeft_eq, Nat.pow_succ]
    grind
  rw [heq, Nat.testBit_two_pow_mul_add q hlt, Nat.testBit_two_pow]

/-- Subtracting one clears the lowest bit, sets the bits below and keeps those above. -/
theorem testBit_odd_shiftLeft_sub_one (q t j : Nat) :
    ((2 * q + 1) <<< t - 1).testBit j = if j < t + 1 then decide (j < t) else q.testBit (j - (t + 1)) := by
  have hpos : 0 < 2 ^ t := Nat.two_pow_pos t
  have hlt : 2 ^ t - 1 < 2 ^ (t + 1) := Nat.lt_of_le_of_lt (Nat.sub_le _ 1) (Nat.pow_lt_pow_succ (by decide))
  have heq : (2 * q + 1) <<< t - 1 = 2 ^ (t + 1) * q + (2 ^ t - 1) := by
    rw [← Nat.add_sub_assoc hpos, Nat.shiftLeft_eq, Nat.pow_succ]
    grind
  rw [heq, Nat.testBit_two_pow_mul_add q hlt, Nat.testBit_two_pow_sub_one]

theorem wordBit_clear {w : UInt64} {t : Nat} (h : trailingZeros? w = some t) (i : Nat) :
    wordBit (w &&& (w - 1)) i = (wordBit w i && decide (i ≠ t)) := by
  have hzero : w.toNat ≠ 0 := by
    intro h0
    obtain rfl : w = 0 := UInt64.toNat_inj.1 h0
    rw [trailingZeros?_zero] at h
    cases h
  obtain ⟨r, q, hodd⟩ := exists_eq_odd_shiftLeft hzero
  have hbits : ∀ j, wordBit w j = if j < r + 1 then decide (r = j) else q.testBit (j - (r + 1)) := by
    intro j
    show w.toNat.testBit j = _
    rw [hodd, testBit_odd_shiftLeft]
  have hpred : wordBit (w - 1) i = if i < r + 1 then decide (i < r) else q.testBit (i - (r + 1)) := by
    show (w - 1).toNat.testBit i = _
    have hle : 1 ≤ w := UInt64.le_iff_toNat_le.2 (Nat.pos_of_ne_zero hzero)
    rw [UInt64.toNat_sub_of_le _ _ hle, UInt64.toNat_one, hodd, testBit_odd_shiftLeft_sub_one]
  have hlowest : trailingZeros? w = some r := by
    refine trailingZeros?_eq_some_iff.2 ⟨by simp [hbits], fun j hj => ?_⟩
    rw [hbits, if_pos (by omega)]
    exact decide_eq_false (by omega)
  obtain rfl : r = t := Option.some.inj (hlowest.symm.trans h)
  rw [wordBit_and, hpred, hbits]
  by_cases hi : i < r + 1
  · by_cases hr : r = i
    · simp [hr]
    · simp [hi, hr]
  · have hne : i ≠ r := by omega
    simp [hi, hne]

/-! ### Counting and listing bits -/

theorem cpopNatRec_eq (w : UInt64) (n acc : Nat) :
    w.toBitVec.cpopNatRec n acc = acc + (List.range n).countP (wordBit w) := by
  induction n generalizing acc with
  | zero => rfl
  | succ n ih =>
    rw [BitVec.cpopNatRec_succ, ih, List.range_succ, List.countP_append, List.countP_singleton, wordBit]
    cases w.toBitVec.getLsbD n
    · simp
    · simp
      omega

theorem countOnes_eq (w : UInt64) : countOnes w = ((List.range 64).filter (wordBit w)).length := by
  have hle : (List.range 64).countP (wordBit w) ≤ (List.range 64).length := List.countP_le_length
  rw [List.length_range] at hle
  rw [countOnes, BitVec.cpop, cpopNatRec_eq, Nat.zero_add, BitVec.toNat_ofNat, Nat.mod_eq_of_lt (by omega),
    List.countP_eq_length_filter]

theorem countOnes_zero : countOnes 0 = 0 := by decide

theorem countOnes_le (w : UInt64) : countOnes w ≤ 64 := BitVec.toNat_cpop_le w.toBitVec

theorem countOnes_clear {w : UInt64} {t : Nat} (h : trailingZeros? w = some t) :
    countOnes w = countOnes (w &&& (w - 1)) + 1 := by
  have hset := (trailingZeros?_eq_some_iff.1 h).1
  have hperm : ((List.range 64).filter (wordBit w)).Perm
      (t :: (List.range 64).filter (wordBit (w &&& (w - 1)))) := by
    have hnodup : (t :: (List.range 64).filter (wordBit (w &&& (w - 1)))).Nodup :=
      List.nodup_cons.2 ⟨by simp [wordBit_clear h], List.nodup_range.filter _⟩
    rw [List.perm_ext_iff_of_nodup (List.nodup_range.filter _) hnodup]
    intro i
    by_cases hi : i = t
    · subst hi
      simp [hset, lt_of_wordBit hset]
    · simp [wordBit_clear h, hi]
  rw [countOnes_eq, countOnes_eq, hperm.length_eq, List.length_cons]

/-- A word is zero, or clearing its lowest bit gives a word with one number fewer. -/
theorem word_induction {motive : UInt64 → Prop} (zero : motive 0)
    (clear : ∀ w t, trailingZeros? w = some t → motive (w &&& (w - 1)) → motive w) (w : UInt64) : motive w := by
  induction hn : countOnes w generalizing w with
  | zero =>
    have hw : w = 0 := Classical.byContradiction fun hw => by
      obtain ⟨t, ht⟩ := exists_trailingZeros hw
      rw [countOnes_clear ht] at hn
      omega
    exact hw ▸ zero
  | succ n ih =>
    have hw : w ≠ 0 := by
      rintro rfl
      rw [countOnes_zero] at hn
      omega
    obtain ⟨t, ht⟩ := exists_trailingZeros hw
    rw [countOnes_clear ht] at hn
    exact clear w t ht (ih _ (Nat.succ.inj hn))

@[simp] theorem scan_zero (n : Nat) : scan n 0 = [] := by
  cases n <;> simp [scan]

theorem scan_succ {w : UInt64} {t : Nat} (n : Nat) (h : trailingZeros? w = some t) :
    scan (n + 1) w = t :: scan n (w &&& (w - 1)) := by
  rw [scan, h]

theorem scan_eq_scan {n m : Nat} {w : UInt64} (hn : countOnes w ≤ n) (hm : countOnes w ≤ m) : scan n w = scan m w := by
  induction w using word_induction generalizing n m with
  | zero => rw [scan_zero, scan_zero]
  | clear w t ht ih =>
    rw [countOnes_clear ht] at hn hm
    obtain ⟨n, rfl⟩ : ∃ k, n = k + 1 := ⟨n - 1, by omega⟩
    obtain ⟨m, rfl⟩ : ∃ k, m = k + 1 := ⟨m - 1, by omega⟩
    rw [scan_succ n ht, scan_succ m ht, ih (Nat.le_of_succ_le_succ hn) (Nat.le_of_succ_le_succ hm)]

theorem wordMembers_clear {w : UInt64} {t : Nat} (h : trailingZeros? w = some t) :
    wordMembers w = t :: wordMembers (w &&& (w - 1)) := by
  have hle := countOnes_le w
  rw [countOnes_clear h] at hle
  have hrest : scan 63 (w &&& (w - 1)) = scan 64 (w &&& (w - 1)) := scan_eq_scan (by omega) (by omega)
  rw [wordMembers, wordMembers, scan_succ 63 h, hrest]

theorem length_wordMembers (w : UInt64) : (wordMembers w).length = countOnes w := by
  induction w using word_induction with
  | zero => rfl
  | clear w t ht ih => rw [wordMembers_clear ht, List.length_cons, ih, countOnes_clear ht]

theorem mem_wordMembers {w : UInt64} {i : Nat} : i ∈ wordMembers w ↔ i < 64 ∧ wordBit w i = true := by
  induction w using word_induction with
  | zero => simp [wordMembers]
  | clear w t ht ih =>
    have hset := (trailingZeros?_eq_some_iff.1 ht).1
    rw [wordMembers_clear ht, List.mem_cons, ih, wordBit_clear ht]
    by_cases hi : i = t
    · subst hi
      simp [hset, lt_of_wordBit hset]
    · simp [hi]

theorem wordMembers_pairwise (w : UInt64) : (wordMembers w).Pairwise (· < ·) := by
  induction w using word_induction with
  | zero => exact .nil
  | clear w t ht ih =>
    rw [wordMembers_clear ht]
    refine List.pairwise_cons.2 ⟨fun i hi => Nat.lt_of_not_le fun hle => ?_, ih⟩
    have hb := (mem_wordMembers.1 hi).2
    rw [wordBit_clear ht, Bool.and_eq_true, decide_eq_true_iff] at hb
    have hlow := (trailingZeros?_eq_some_iff.1 ht).2 i (Nat.lt_of_le_of_ne hle hb.2)
    rw [hb.1] at hlow
    cases hlow

/-! ### Sequences -/

/-- Whether number `i` is in the sequence. -/
def bit : List UInt64 → Nat → Bool
  | [], _ => false
  | w :: ws, i => if i < 64 then wordBit w i else bit ws (i - 64)

/-- Sets the bits of `m` in word `n`, adding zero words up to it. -/
def setWord (m : UInt64) : Nat → List UInt64 → List UInt64
  | 0, [] => [m]
  | 0, w :: ws => (w ||| m) :: ws
  | n + 1, [] => 0 :: setWord m n []
  | n + 1, w :: ws => w :: setWord m n ws

/-- Clears the bits of `m` in word `n`. -/
def clearWord (m : UInt64) : Nat → List UInt64 → List UInt64
  | _, [] => []
  | 0, w :: ws => (w &&& ~~~m) :: ws
  | n + 1, w :: ws => w :: clearWord m n ws

/-- Whether a bit of `m` is set in word `n`, which is zero beyond the end. -/
def wordMeets (m : UInt64) (n : Nat) (ws : List UInt64) : Bool := (ws.getD n 0 &&& m) != 0

/-- Puts number `i` in, and tells whether it is new. -/
def insert (ws : List UInt64) (i : Nat) : List UInt64 × Bool :=
  let m := mask (i % 64)
  let wasSet := wordMeets m (i / 64) ws
  (setWord m (i / 64) ws, !wasSet)

/-- Drops the zero words at the end. -/
def trim : List UInt64 → List UInt64
  | [] => []
  | w :: ws =>
    match trim ws with
    | [] => if w = 0 then [] else [w]
    | v :: vs => w :: v :: vs

/-- Takes number `i` out, and tells whether it was there. -/
def remove (ws : List UInt64) (i : Nat) : List UInt64 × Bool :=
  let m := mask (i % 64)
  let wasSet := wordMeets m (i / 64) ws
  (trim (clearWord m (i / 64) ws), wasSet)

/-- Puts in the numbers of the second sequence, and tells whether one of them is new. -/
def unionWith : List UInt64 → List UInt64 → List UInt64 × Bool
  | us, [] => (us, false)
  | [], v :: vs => (v :: (unionWith [] vs).1, v != 0 || (unionWith [] vs).2)
  | u :: us, v :: vs => ((u ||| v) :: (unionWith us vs).1, (u ||| v) != u || (unionWith us vs).2)

def diff : List UInt64 → List UInt64 → List UInt64
  | [], _ => []
  | us, [] => us
  | u :: us, v :: vs => (u &&& ~~~v) :: diff us vs

def meets : List UInt64 → List UInt64 → Bool
  | u :: us, v :: vs => (u &&& v) != 0 || meets us vs
  | _, _ => false

def within : List UInt64 → List UInt64 → Bool
  | [], _ => true
  | u :: us, [] => u == 0 && within us []
  | u :: us, v :: vs => (u &&& ~~~v) == 0 && within us vs

/-- The numbers of a sequence whose first word starts at `base`, ascending. -/
def membersFrom (base : Nat) : List UInt64 → List Nat
  | [] => []
  | w :: ws => (wordMembers w).map (base + ·) ++ membersFrom (base + 64) ws

/-- How many numbers are in the sequence. -/
def count (ws : List UInt64) : Nat := total countOnes ws

def Trimmed (ws : List UInt64) : Prop := ws.getLast? ≠ some 0

/-! ### The operations through `bit` -/

@[simp] theorem bit_nil (i : Nat) : bit [] i = false := rfl

theorem bit_cons_low {w : UInt64} {ws : List UInt64} {i : Nat} (h : i < 64) : bit (w :: ws) i = wordBit w i := by
  simp [bit, h]

@[simp] theorem bit_cons_high {w : UInt64} {ws : List UInt64} {i : Nat} : bit (w :: ws) (i + 64) = bit ws i := by
  have : ¬ i + 64 < 64 := by omega
  simp [bit, this]

theorem forall_split {p : Nat → Prop} : (∀ i, p i) ↔ (∀ i < 64, p i) ∧ ∀ i, p (i + 64) := by
  constructor
  · exact fun h => ⟨fun i _ => h i, fun i => h _⟩
  · rintro ⟨hlow, hhigh⟩ i
    by_cases h : i < 64
    · exact hlow i h
    · have := hhigh (i - 64)
      rwa [Nat.sub_add_cancel (by omega)] at this

theorem exists_split {p : Nat → Prop} : (∃ i, p i) ↔ (∃ i < 64, p i) ∨ ∃ i, p (i + 64) := by
  constructor
  · rintro ⟨i, hi⟩
    by_cases h : i < 64
    · exact .inl ⟨i, h, hi⟩
    · refine .inr ⟨i - 64, ?_⟩
      rwa [Nat.sub_add_cancel (by omega)]
  · rintro (⟨i, _, hi⟩ | ⟨i, hi⟩)
    · exact ⟨i, hi⟩
    · exact ⟨i + 64, hi⟩

theorem bit_setWord (m : UInt64) (n : Nat) (ws : List UInt64) (j : Nat) :
    bit (setWord m n ws) j = ((decide (j / 64 = n) && wordBit m (j % 64)) || bit ws j) := by
  have hlow : ∀ {j : Nat}, j < 64 → j / 64 = 0 ∧ j % 64 = j := fun h => by omega
  have hhigh : ∀ j : Nat, (j + 64) / 64 = j / 64 + 1 ∧ (j + 64) % 64 = j % 64 := fun j => by omega
  induction n generalizing ws j with
  | zero =>
    revert j
    cases ws <;> refine forall_split.2 ⟨fun j hj => ?_, fun j => ?_⟩ <;>
      simp [setWord, bit_cons_low, *, Bool.or_comm]
  | succ n ih =>
    revert j
    cases ws <;> refine forall_split.2 ⟨fun j hj => ?_, fun j => ?_⟩ <;>
      simp [setWord, bit_cons_low, *]

theorem bit_clearWord (m : UInt64) (n : Nat) (ws : List UInt64) (j : Nat) :
    bit (clearWord m n ws) j = (!(decide (j / 64 = n) && wordBit m (j % 64)) && bit ws j) := by
  have hlow : ∀ {j : Nat}, j < 64 → j / 64 = 0 ∧ j % 64 = j := fun h => by omega
  have hhigh : ∀ j : Nat, (j + 64) / 64 = j / 64 + 1 ∧ (j + 64) % 64 = j % 64 := fun j => by omega
  fun_induction clearWord m n ws generalizing j with
  | case1 => simp
  | case2 w ws =>
    revert j
    refine forall_split.2 ⟨fun j hj => ?_, fun j => ?_⟩
    · simp [bit_cons_low hj, wordBit_not _ hj, hlow hj, Bool.and_comm]
    · simp [hhigh]
  | case3 n w ws ih =>
    revert j
    refine forall_split.2 ⟨fun j hj => ?_, fun j => ?_⟩
    · simp [bit_cons_low hj, hlow hj]
    · simp [hhigh, ih]

theorem and_wordBit_mask (i j : Nat) : (decide (j / 64 = i / 64) && wordBit (mask (i % 64)) (j % 64)) = decide (j = i) := by
  have hsame : j = i ↔ j / 64 = i / 64 ∧ j % 64 = i % 64 := by omega
  rw [wordBit_mask (Nat.mod_lt j (by decide)), ← Bool.decide_and]
  exact decide_eq_decide.2 hsame.symm

theorem bit_insert (ws : List UInt64) (i j : Nat) : bit (insert ws i).1 j = (decide (j = i) || bit ws j) := by
  rw [insert, bit_setWord, and_wordBit_mask]

theorem wordMeets_mask (ws : List UInt64) (i : Nat) : wordMeets (mask (i % 64)) (i / 64) ws = bit ws i := by
  induction ws generalizing i with
  | nil => simp [wordMeets]
  | cons w ws ih =>
    by_cases hi : i < 64
    · have hword : i / 64 = 0 ∧ i % 64 = i := by omega
      rw [hword.1, hword.2, bit_cons_low hi, Bool.eq_iff_iff]
      exact bne_iff_ne.trans (and_mask_ne_zero_iff hi)
    · obtain ⟨j, rfl⟩ : ∃ j, i = j + 64 := ⟨i - 64, by omega⟩
      rw [bit_cons_high, ← ih j, Nat.add_mod_right, Nat.add_div_right j (by decide)]
      rfl

theorem insert_isNew (ws : List UInt64) (i : Nat) : (insert ws i).2 = !bit ws i := by
  rw [← wordMeets_mask ws i]
  rfl

theorem remove_wasSet (ws : List UInt64) (i : Nat) : (remove ws i).2 = bit ws i := wordMeets_mask ws i

theorem bit_unionWith (us vs : List UInt64) (j : Nat) : bit (unionWith us vs).1 j = (bit us j || bit vs j) := by
  fun_induction unionWith us vs generalizing j with
  | case1 => simp
  | case2 v vs ih =>
    revert j
    exact forall_split.2 ⟨fun j hj => by simp [bit_cons_low hj], fun j => by simp [ih]⟩
  | case3 u us v vs ih =>
    revert j
    exact forall_split.2 ⟨fun j hj => by simp [bit_cons_low hj], fun j => by simp [ih]⟩

theorem bit_diff (us vs : List UInt64) (j : Nat) : bit (diff us vs) j = (bit us j && !bit vs j) := by
  fun_induction diff us vs generalizing j with
  | case1 => simp
  | case2 => simp
  | case3 u us v vs ih =>
    revert j
    exact forall_split.2 ⟨fun j hj => by simp [bit_cons_low hj, wordBit_not _ hj], fun j => by simp [ih]⟩

theorem bit_trim (ws : List UInt64) (j : Nat) : bit (trim ws) j = bit ws j := by
  induction ws generalizing j with
  | nil => rfl
  | cons w ws ih =>
    unfold trim
    split
    · rename_i htail
      revert j
      split
      · rename_i hw
        refine forall_split.2 ⟨fun j hj => ?_, fun j => ?_⟩
        · simp [bit_cons_low hj, hw]
        · simp [← ih, htail]
      · exact forall_split.2 ⟨fun j hj => by simp [bit_cons_low hj], fun j => by simp [← ih, htail]⟩
    · rename_i v vs htail
      revert j
      refine forall_split.2 ⟨fun j hj => by simp [bit_cons_low hj], fun j => ?_⟩
      rw [bit_cons_high, bit_cons_high, ← htail, ih]

theorem bit_remove (ws : List UInt64) (i j : Nat) : bit (remove ws i).1 j = (!decide (j = i) && bit ws j) := by
  rw [remove, bit_trim, bit_clearWord, and_wordBit_mask]

theorem meets_iff (us vs : List UInt64) : meets us vs = true ↔ ∃ i, bit us i = true ∧ bit vs i = true := by
  induction us generalizing vs with
  | nil => simp [meets]
  | cons u us ih =>
    cases vs with
    | nil => simp [meets]
    | cons v vs =>
      rw [exists_split]
      simp only [meets, Bool.or_eq_true, bne_iff_ne, ih, bit_cons_high, word_ne_zero_iff]
      refine or_congr (exists_congr fun i => and_congr_right fun hi => ?_) Iff.rfl
      simp [bit_cons_low hi]

theorem within_iff (us vs : List UInt64) : within us vs = true ↔ ∀ i, bit us i = true → bit vs i = true := by
  induction us generalizing vs with
  | nil => simp [within]
  | cons u us ih =>
    rw [forall_split]
    cases vs with
    | nil =>
      simp only [within, Bool.and_eq_true, beq_iff_eq, ih, bit_cons_high, bit_nil, word_eq_zero_iff]
      refine and_congr (forall_congr' fun i => forall_congr' fun hi => ?_) Iff.rfl
      simp [bit_cons_low hi]
    | cons v vs =>
      simp only [within, Bool.and_eq_true, beq_iff_eq, ih, bit_cons_high, and_not_eq_zero_iff]
      refine and_congr (forall_congr' fun i => forall_congr' fun hi => ?_) Iff.rfl
      simp [bit_cons_low hi]

theorem unionWith_grows (us vs : List UInt64) : (unionWith us vs).2 = !within vs us := by
  fun_induction unionWith us vs with
  | case1 => rfl
  | case2 v vs ih => simp [within, ih, bne]
  | case3 u us v vs ih =>
    have hword : (u ||| v == u) = (v &&& ~~~u == 0) := by
      rw [Bool.eq_iff_iff, beq_iff_eq, beq_iff_eq, or_eq_left_iff]
    simp [within, ih, bne, hword]

theorem mem_membersFrom {base : Nat} {ws : List UInt64} {n : Nat} :
    n ∈ membersFrom base ws ↔ base ≤ n ∧ bit ws (n - base) = true := by
  induction ws generalizing base with
  | nil => simp [membersFrom]
  | cons w ws ih =>
    simp only [membersFrom, List.mem_append, List.mem_map, mem_wordMembers, ih, bit]
    constructor
    · rintro (⟨i, ⟨hi, hb⟩, rfl⟩ | ⟨hle, hb⟩)
      · exact ⟨by omega, by simp [hi, hb]⟩
      · have h1 : ¬ n - base < 64 := by omega
        have h2 : n - base - 64 = n - (base + 64) := by omega
        exact ⟨by omega, by simp [h1, h2, hb]⟩
    · rintro ⟨hle, hb⟩
      by_cases h : n - base < 64
      · exact .inl ⟨n - base, ⟨h, by simpa [h] using hb⟩, by omega⟩
      · have h2 : n - base - 64 = n - (base + 64) := by omega
        exact .inr ⟨by omega, by simpa [h, h2] using hb⟩

theorem membersFrom_pairwise (base : Nat) (ws : List UInt64) : (membersFrom base ws).Pairwise (· < ·) := by
  induction ws generalizing base with
  | nil => exact .nil
  | cons w ws ih =>
    refine List.pairwise_append.2 ⟨?_, ih _, ?_⟩
    · exact List.pairwise_map.2 ((wordMembers_pairwise w).imp fun h => by omega)
    · intro a ha b hb
      obtain ⟨i, hi, rfl⟩ := List.mem_map.1 ha
      have := (mem_wordMembers.1 hi).1
      have := (mem_membersFrom.1 hb).1
      omega

theorem length_membersFrom (base : Nat) (ws : List UInt64) : (membersFrom base ws).length = count ws := by
  induction ws generalizing base with
  | nil => rfl
  | cons w ws ih =>
    rw [membersFrom, List.length_append, List.length_map, length_wordMembers, ih, count, count, total_cons]

/-! ### Trimmed sequences -/

theorem trimmed_nil : Trimmed [] := by simp [Trimmed]

theorem trimmed_cons {w : UInt64} {ws : List UInt64} : Trimmed (w :: ws) ↔ Trimmed ws ∧ (ws = [] → w ≠ 0) := by
  cases ws <;> simp [Trimmed, List.getLast?_cons_cons]

theorem trimmed_trim (ws : List UInt64) : Trimmed (trim ws) := by
  fun_induction trim ws with
  | case1 => exact trimmed_nil
  | case2 => exact trimmed_nil
  | case3 w ws _ hw => exact trimmed_cons.2 ⟨trimmed_nil, fun _ => hw⟩
  | case4 w ws v vs htail ih => exact trimmed_cons.2 ⟨htail ▸ ih, by simp⟩

theorem setWord_ne_nil (m : UInt64) (n : Nat) (ws : List UInt64) : setWord m n ws ≠ [] := by
  cases n <;> cases ws <;> simp [setWord]

theorem trimmed_setWord {m : UInt64} (hm : m ≠ 0) (n : Nat) {ws : List UInt64} (h : Trimmed ws) :
    Trimmed (setWord m n ws) := by
  fun_induction setWord m n ws with
  | case1 => exact trimmed_cons.2 ⟨trimmed_nil, fun _ => hm⟩
  | case2 w ws =>
    obtain ⟨i, hi, hb⟩ := word_ne_zero_iff.1 hm
    exact trimmed_cons.2 ⟨(trimmed_cons.1 h).1, fun _ => word_ne_zero_iff.2 ⟨i, hi, by simp [hb]⟩⟩
  | case3 n ih => exact trimmed_cons.2 ⟨ih trimmed_nil, fun he => absurd he (setWord_ne_nil _ _ _)⟩
  | case4 n w ws ih =>
    exact trimmed_cons.2 ⟨ih (trimmed_cons.1 h).1, fun he => absurd he (setWord_ne_nil _ _ _)⟩

theorem trimmed_insert {ws : List UInt64} (h : Trimmed ws) (i : Nat) : Trimmed (insert ws i).1 :=
  trimmed_setWord (mask_ne_zero (by omega)) _ h

theorem trimmed_remove (ws : List UInt64) (i : Nat) : Trimmed (remove ws i).1 := trimmed_trim _

theorem unionWith_eq_nil {us vs : List UInt64} : (unionWith us vs).1 = [] ↔ us = [] ∧ vs = [] := by
  cases us <;> cases vs <;> simp [unionWith]

theorem trimmed_unionWith {us vs : List UInt64} (hu : Trimmed us) (hv : Trimmed vs) :
    Trimmed (unionWith us vs).1 := by
  fun_induction unionWith us vs with
  | case1 => exact hu
  | case2 v vs ih =>
    rw [trimmed_cons] at hv ⊢
    exact ⟨ih hu hv.1, fun he => hv.2 (unionWith_eq_nil.1 he).2⟩
  | case3 u us v vs ih =>
    rw [trimmed_cons] at hu hv ⊢
    refine ⟨ih hu.1 hv.1, fun he => ?_⟩
    obtain ⟨i, hi, hb⟩ := word_ne_zero_iff.1 (hu.2 (unionWith_eq_nil.1 he).1)
    exact word_ne_zero_iff.2 ⟨i, hi, by simp [hb]⟩

theorem exists_bit_of_trimmed {ws : List UInt64} (h : Trimmed ws) (hne : ws ≠ []) : ∃ i, bit ws i = true := by
  induction ws with
  | nil => exact absurd rfl hne
  | cons w ws ih =>
    rw [trimmed_cons] at h
    by_cases hws : ws = []
    · obtain ⟨i, hi, hb⟩ := word_ne_zero_iff.1 (h.2 hws)
      exact ⟨i, by simpa [bit_cons_low hi] using hb⟩
    · obtain ⟨i, hb⟩ := ih h.1 hws
      exact ⟨i + 64, by simpa using hb⟩

theorem eq_of_bit_eq {us vs : List UInt64} (hu : Trimmed us) (hv : Trimmed vs) (h : ∀ i, bit us i = bit vs i) :
    us = vs := by
  induction us generalizing vs with
  | nil =>
    refine Classical.byContradiction fun hne => ?_
    obtain ⟨i, hi⟩ := exists_bit_of_trimmed hv (fun e => hne e.symm)
    simp [← h i] at hi
  | cons u us ih =>
    cases vs with
    | nil =>
      obtain ⟨i, hi⟩ := exists_bit_of_trimmed hu (by simp)
      simp [h i] at hi
    | cons v vs =>
      obtain ⟨hlow, hhigh⟩ := forall_split.1 h
      have hhead : u = v := word_ext fun i hi => by simpa [bit_cons_low hi] using hlow i hi
      have htail := ih (trimmed_cons.1 hu).1 (trimmed_cons.1 hv).1 fun i => by simpa using hhigh i
      rw [hhead, htail]

end HeapSummary.Words
