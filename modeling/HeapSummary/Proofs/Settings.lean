import HeapSummary.Options.Setting
import HeapSummary.Proofs.Numerals
import Mathlib.Data.List.Forall2

/-!
# Options are what their variables say

Each option follows one variable of its own. If the variable is not set, the option has its standard value, and
otherwise the value that the text denotes: a flag is one of eight words in any case, a limit is a numeral with a sign or
without, negative for no limit, and a depth is a numeral without a minus sign. Reading fails just if the text of some
variable denotes nothing, and the error names the first such variable.

What a text denotes is said here without the readers, as relations between texts and values.
-/

namespace HeapSummary

namespace Setting

variable {s r : Setting} {lookup : Lookup} {text : String} {e : SettingError} {b : Bool} {c d : Char}

/-! ### What a text denotes -/

def words : Bool → List String
  | true => ["1", "true", "yes", "on"]
  | false => ["0", "false", "no", "off"]

/-- `c` is `d`, or it is the upper case of the ASCII letter `d`. -/
def SameLetter (c d : Char) : Prop := c = d ∨ ('A' ≤ c ∧ c ≤ 'Z') ∧ d.toNat = c.toNat + 32

/-- The characters are those of the word but for their case. -/
def Spells (cs : List Char) (word : String) : Prop := List.Forall₂ SameLetter cs word.toList

def FlagValue (text : String) (b : Bool) : Prop :=
  ∃ core, Text.Strips text.toList core ∧ ∃ word ∈ words b, Spells core word

def LimitValue (text : String) (limit : Option Nat) : Prop :=
  ∃ core z, Text.Strips text.toList core ∧ (Text.Signed core z ∧ -2 ^ 63 ≤ z ∧ z < 2 ^ 63) ∧
    limit = if z < 0 then none else some z.toNat

def DepthValue (text : String) (depth : Nat) : Prop :=
  ∃ core, Text.Strips text.toList core ∧ Text.Unsigned core depth ∧ depth < 2 ^ 64

/-! ### Flags -/

theorem toLower_of_upper (h : 'A' ≤ c ∧ c ≤ 'Z') : c.toLower.toNat = c.toNat + 32 := by
  have hlower : c.toLower = ⟨c.val + ('a'.val - 'A'.val), _⟩ := dif_pos h
  have hle : c.val.toNat ≤ 'Z'.val.toNat := UInt32.le_iff_toNat_le.1 h.2
  have hsmall : c.val.toNat + 32 < 2 ^ 32 := Nat.lt_of_le_of_lt (Nat.add_le_add_right hle 32) (by decide)
  show c.toLower.val.toNat = c.val.toNat + 32
  rw [hlower]
  show (c.val + ('a'.val - 'A'.val)).toNat = _
  rw [UInt32.toNat_add]
  exact Nat.mod_eq_of_lt hsmall

theorem toLower_of_not_upper (h : ¬ ('A' ≤ c ∧ c ≤ 'Z')) : c.toLower = c := dif_neg h

theorem toLower_eq_iff (hd : ¬ ('A' ≤ d ∧ d ≤ 'Z')) : c.toLower = d ↔ SameLetter c d := by
  unfold SameLetter
  by_cases hc : 'A' ≤ c ∧ c ≤ 'Z'
  · have hne : c ≠ d := fun heq => hd (heq ▸ hc)
    rw [or_iff_right hne, and_iff_right hc, ← Char.toNat_inj, toLower_of_upper hc, eq_comm]
  · rw [toLower_of_not_upper hc, or_iff_left fun h => hc h.1]

theorem flagOfWord?_eq_some {word : String} : flagOfWord? word = some b ↔ word ∈ words b := by
  unfold flagOfWord?
  split <;> cases b <;> simp_all [words]

theorem not_upper_of_mem_words {word : String} (h : word ∈ words b) : ∀ d ∈ word.toList, ¬ ('A' ≤ d ∧ d ≤ 'Z') := by
  have hall : ((words b).flatMap String.toList).all (fun d => ¬ ('A' ≤ d ∧ d ≤ 'Z')) = true := by cases b <;> decide
  exact fun d hd => of_decide_eq_true (List.all_eq_true.1 hall d (List.mem_flatMap.2 ⟨word, h, hd⟩))

theorem map_toLower_eq_iff {cs ds : List Char} (hds : ∀ d ∈ ds, ¬ ('A' ≤ d ∧ d ≤ 'Z')) :
    cs.map Char.toLower = ds ↔ List.Forall₂ SameLetter cs ds := by
  induction ds generalizing cs with
  | nil => simp
  | cons d ds ih =>
    rw [List.forall_mem_cons] at hds
    cases cs with
    | nil => simp
    | cons c cs => rw [List.map_cons, List.cons.injEq, toLower_eq_iff hds.1, ih hds.2, List.forall₂_cons]

theorem readFlag_eq_ok : readFlag s text = .ok b ↔ FlagValue text b := by
  have hword : flagOfWord? (word text) = some b ↔ FlagValue text b := by
    simp only [flagOfWord?_eq_some, FlagValue, Text.strips_iff, exists_eq_left', Spells]
    constructor
    · intro h
      refine ⟨_, h, (map_toLower_eq_iff (not_upper_of_mem_words h)).1 ?_⟩
      rw [word, String.toList_ofList]
    · rintro ⟨w, hw, hspells⟩
      rw [word, (map_toLower_eq_iff (not_upper_of_mem_words hw)).2 hspells, String.ofList_toList]
      exact hw
  rw [← hword, readFlag]
  cases flagOfWord? (word text) <;> simp

/-! ### Numbers -/

theorem toNat?_eq (z : Int) : z.toNat? = if z < 0 then none else some z.toNat := by
  cases z with
  | ofNat n => exact (if_neg (Int.not_lt.2 (Int.natCast_nonneg n))).symm
  | negSucc n => exact (if_pos (Int.negSucc_lt_zero n)).symm

theorem readLimit_eq_ok {limit : Option Nat} : readLimit s text = .ok limit ↔ LimitValue text limit := by
  have hnumber : LimitValue text limit ↔ ∃ z, Text.readSigned (Text.trim text.toList) = .ok z ∧ z.toNat? = limit := by
    simp only [LimitValue, Text.strips_iff, Text.readSigned_eq_ok, toNat?_eq]
    constructor
    · rintro ⟨core, z, rfl, hz, rfl⟩
      exact ⟨z, hz, rfl⟩
    · rintro ⟨z, hz, rfl⟩
      exact ⟨_, z, rfl, hz, rfl⟩
  rw [hnumber, readLimit]
  cases Text.readSigned (Text.trim text.toList) <;> simp

theorem readDepth_eq_ok {depth : Nat} : readDepth s text = .ok depth ↔ DepthValue text depth := by
  simp only [DepthValue, Text.strips_iff, exists_eq_left', ← Text.readUnsigned_eq_ok]
  rw [readDepth]
  cases Text.readUnsigned (Text.trim text.toList) <;> simp

/-! ### One variable -/

/-- A text that a setting takes. -/
def Accepts (s : Setting) (text : String) : Prop :=
  match s with
  | maxInterface => ∃ limit, LimitValue text limit
  | mergeDepth => ∃ depth, DepthValue text depth
  | _ => ∃ b, FlagValue text b

/-- The variable of a setting is not set, or it is set to a text that denotes something. -/
def Valid (lookup : Lookup) (s : Setting) : Prop := ∀ text, lookup s.key = some text → s.Accepts text

/-- The value of a variable is what its text denotes, and the standard one if it is not set. -/
def Gives {α : Type} (lookup : Lookup) (key : String) (Denotes : String → α → Prop) (standard value : α) : Prop :=
  match lookup key with
  | some text => Denotes text value
  | none => value = standard

/-- A reader of a setting gives what a text denotes, and its errors name the setting. -/
structure Reads {α : Type} (s : Setting) (read : Setting → String → Except SettingError α)
    (Denotes : String → α → Prop) : Prop where
  eq_ok : ∀ text value, read s text = .ok value ↔ Denotes text value
  accepts : ∀ text, s.Accepts text ↔ ∃ value, Denotes text value
  names : ∀ text e, read s text = .error e → e.setting = s

theorem reads_flag (h : ∀ text, s.Accepts text ↔ ∃ b, FlagValue text b) : Reads s readFlag FlagValue := by
  refine ⟨fun _ _ => readFlag_eq_ok, h, fun text e he => ?_⟩
  unfold readFlag at he
  split at he <;> cases he
  rfl

theorem reads_limit : Reads maxInterface readLimit LimitValue := by
  refine ⟨fun _ _ => readLimit_eq_ok, fun _ => Iff.rfl, fun text e he => ?_⟩
  unfold readLimit at he
  split at he <;> cases he
  rfl

theorem reads_depth : Reads mergeDepth readDepth DepthValue := by
  refine ⟨fun _ _ => readDepth_eq_ok, fun _ => Iff.rfl, fun text e he => ?_⟩
  unfold readDepth at he
  split at he <;> cases he
  rfl

/-- `s` is the first invalid one of the settings. -/
def FirstInvalid (lookup : Lookup) (settings : List Setting) (s : Setting) : Prop :=
  ∃ before after, settings = before ++ s :: after ∧ (∀ r ∈ before, r.Valid lookup) ∧ ¬ s.Valid lookup

theorem FirstInvalid.cons {settings : List Setting} (hr : r.Valid lookup) (h : FirstInvalid lookup settings s) :
    FirstInvalid lookup (r :: settings) s := by
  obtain ⟨before, after, rfl, hbefore, hs⟩ := h
  exact ⟨r :: before, after, rfl, List.forall_mem_cons.2 ⟨hr, hbefore⟩, hs⟩

namespace Reads

variable {α β : Type} {read : Setting → String → Except SettingError α} {Denotes : String → α → Prop}
  {standard value : α} (h : Reads s read Denotes)

include h

theorem resolve_eq_ok :
    s.resolve read standard lookup = .ok value ↔ Gives lookup s.key Denotes standard value := by
  unfold resolve Gives
  cases lookup s.key with
  | some text => exact h.eq_ok text value
  | none => exact ⟨fun heq => (Except.ok.inj heq).symm, fun heq => congrArg _ heq.symm⟩

theorem valid_iff : s.Valid lookup ↔ ∃ value, Gives lookup s.key Denotes standard value := by
  unfold Valid Gives
  cases lookup s.key with
  | some text =>
    rw [← h.accepts]
    exact ⟨fun hvalid => hvalid text rfl, fun haccepts _ heq => Option.some.inj heq ▸ haccepts⟩
  | none => exact ⟨fun _ => ⟨standard, rfl⟩, fun _ _ heq => by cases heq⟩

theorem setting_of_resolve (herror : s.resolve read standard lookup = .error e) : e.setting = s := by
  unfold resolve at herror
  split at herror
  · exact h.names _ e herror
  · cases herror

/-- Settings are resolved one after another. If that fails, it fails at the first invalid one. -/
theorem firstInvalid_of_bind {rest : List Setting} {f : α → Except SettingError β}
    (hrun : s.resolve read standard lookup >>= f = .error e)
    (hrest : ∀ value, f value = .error e → FirstInvalid lookup rest e.setting) :
    FirstInvalid lookup (s :: rest) e.setting := by
  cases hresolve : s.resolve read standard lookup with
  | error e' =>
    rw [hresolve] at hrun
    obtain rfl : e' = e := Except.error.inj hrun
    rw [h.setting_of_resolve hresolve]
    refine ⟨[], rest, rfl, fun _ hr => absurd hr List.not_mem_nil, fun hvalid => ?_⟩
    obtain ⟨value, hvalue⟩ : ∃ value, Gives lookup s.key Denotes standard value := h.valid_iff.1 hvalid
    rw [h.resolve_eq_ok.2 hvalue] at hresolve
    cases hresolve
  | ok value =>
    rw [Outcome.bind_of_ok hresolve] at hrun
    exact .cons (h.valid_iff.2 ⟨value, h.resolve_eq_ok.1 hresolve⟩) (hrest value hrun)

end Reads

/-- The order in which settings are read: flags, then the limit, then the depth. -/
def order : List Setting :=
  [cutUnreachable, mergeExceptions, cutImmutables, mergeSharedFields, foldPruned, gatedPropagation, maxInterface,
    mergeDepth]

end Setting

namespace Options

open Setting

variable {lookup : Lookup} {o : Options} {e : SettingError}

/-- Every option is what its own variable gives, and the immutable types are the standard ones. -/
structure SetBy (lookup : Lookup) (o : Options) : Prop where
  cutUnreachable :
    Gives lookup "OBJGRAPH_CUT_OFF_UNREACHABLE" FlagValue standard.cutUnreachable o.cutUnreachable
  mergeExceptions : Gives lookup "OBJGRAPH_MERGE_EXCEPTIONS" FlagValue standard.mergeExceptions o.mergeExceptions
  cutImmutables : Gives lookup "OBJGRAPH_CUT_OFF_IMMUTABLE" FlagValue standard.cutImmutables o.cutImmutables
  immutableTypes : o.immutableTypes = standard.immutableTypes
  mergeSharedFields :
    Gives lookup "OBJGRAPH_MERGE_ONE_FIELD_PER_PARENT" FlagValue standard.mergeSharedFields o.mergeSharedFields
  foldPruned : Gives lookup "OBJGRAPH_MERGE_PRUNED_CALL_NODES" FlagValue standard.foldPruned o.foldPruned
  gatedPropagation :
    Gives lookup "OBJGRAPH_ADVANCED_INTERPROC_PROP" FlagValue standard.gatedPropagation o.gatedPropagation
  maxInterface : Gives lookup "OBJGRAPH_MAX_NODES_PER_INTERFACE" LimitValue standard.maxInterface o.maxInterface
  mergeDepth : Gives lookup "OBJGRAPH_MERGE_DEPTH" DepthValue standard.mergeDepth o.mergeDepth

theorem ofLookup_eq_ok : ofLookup lookup = .ok o ↔ o.SetBy lookup := by
  simp only [ofLookup, Outcome.bind_eq_ok, Outcome.pure_eq_ok, reads_limit.resolve_eq_ok, reads_depth.resolve_eq_ok,
    (reads_flag (s := .cutUnreachable) fun _ => Iff.rfl).resolve_eq_ok,
    (reads_flag (s := .mergeExceptions) fun _ => Iff.rfl).resolve_eq_ok,
    (reads_flag (s := .cutImmutables) fun _ => Iff.rfl).resolve_eq_ok,
    (reads_flag (s := .mergeSharedFields) fun _ => Iff.rfl).resolve_eq_ok,
    (reads_flag (s := .foldPruned) fun _ => Iff.rfl).resolve_eq_ok,
    (reads_flag (s := .gatedPropagation) fun _ => Iff.rfl).resolve_eq_ok]
  constructor
  · rintro ⟨_, h₁, _, h₂, _, h₃, _, h₄, _, h₅, _, h₆, _, hlimit, _, hdepth, rfl⟩
    exact ⟨h₁, h₂, h₃, rfl, h₄, h₅, h₆, hlimit, hdepth⟩
  · rintro ⟨h₁, h₂, h₃, htypes, h₄, h₅, h₆, hlimit, hdepth⟩
    exact ⟨_, h₁, _, h₂, _, h₃, _, h₄, _, h₅, _, h₆, _, hlimit, _, hdepth, by rw [← htypes]⟩

theorem firstInvalid_of_ofLookup (h : ofLookup lookup = .error e) : FirstInvalid lookup order e.setting := by
  unfold ofLookup at h
  refine (reads_flag fun _ => Iff.rfl).firstInvalid_of_bind h fun _ h => ?_
  refine (reads_flag fun _ => Iff.rfl).firstInvalid_of_bind h fun _ h => ?_
  refine (reads_flag fun _ => Iff.rfl).firstInvalid_of_bind h fun _ h => ?_
  refine (reads_flag fun _ => Iff.rfl).firstInvalid_of_bind h fun _ h => ?_
  refine (reads_flag fun _ => Iff.rfl).firstInvalid_of_bind h fun _ h => ?_
  refine (reads_flag fun _ => Iff.rfl).firstInvalid_of_bind h fun _ h => ?_
  refine reads_limit.firstInvalid_of_bind h fun _ h => ?_
  refine reads_depth.firstInvalid_of_bind h fun _ h => ?_
  cases h

theorem SetBy.valid (h : o.SetBy lookup) (s : Setting) : s.Valid lookup := by
  cases s with
  | cutUnreachable => exact (reads_flag fun _ => Iff.rfl).valid_iff.2 ⟨_, h.cutUnreachable⟩
  | mergeExceptions => exact (reads_flag fun _ => Iff.rfl).valid_iff.2 ⟨_, h.mergeExceptions⟩
  | cutImmutables => exact (reads_flag fun _ => Iff.rfl).valid_iff.2 ⟨_, h.cutImmutables⟩
  | mergeSharedFields => exact (reads_flag fun _ => Iff.rfl).valid_iff.2 ⟨_, h.mergeSharedFields⟩
  | foldPruned => exact (reads_flag fun _ => Iff.rfl).valid_iff.2 ⟨_, h.foldPruned⟩
  | gatedPropagation => exact (reads_flag fun _ => Iff.rfl).valid_iff.2 ⟨_, h.gatedPropagation⟩
  | maxInterface => exact reads_limit.valid_iff.2 ⟨_, h.maxInterface⟩
  | mergeDepth => exact reads_depth.valid_iff.2 ⟨_, h.mergeDepth⟩

theorem exists_message (e : SettingError) : ∃ detail, e.message = "invalid value for " ++ e.setting.key ++ detail := by
  cases e with
  | notFlag s word => exact ⟨"", String.append_empty.symm⟩
  | notNumber s text cause => exact ⟨": " ++ Text.quoted text, String.append_assoc⟩

/-- Reading options succeeds just if every variable that is set has a text that denotes something. It gives the options
of which each is what its own variable gives. If it fails, the error names the first invalid variable, flags first, then
the limit, then the depth. -/
theorem options_follow_variables (lookup : Lookup) :
    ((∃ o, ofLookup lookup = .ok o) ↔ ∀ s : Setting, s.Valid lookup) ∧
    (∀ o, ofLookup lookup = .ok o ↔ o.SetBy lookup) ∧
    ∀ e, ofLookup lookup = .error e → FirstInvalid lookup order e.setting ∧
      ∃ detail, e.message = "invalid value for " ++ e.setting.key ++ detail := by
  refine ⟨⟨?_, fun hvalid => ?_⟩, fun o => ofLookup_eq_ok, fun e he => ⟨firstInvalid_of_ofLookup he, exists_message e⟩⟩
  · rintro ⟨o, ho⟩ s
    exact (ofLookup_eq_ok.1 ho).valid s
  · cases hrun : ofLookup lookup with
    | ok o => exact ⟨o, rfl⟩
    | error e =>
      obtain ⟨_, _, _, _, hinvalid⟩ := firstInvalid_of_ofLookup hrun
      exact absurd (hvalid e.setting) hinvalid

/-- The least number there is lifts the limit, and a plus sign is allowed where a minus sign is not. -/
example : ofLookup (fun key =>
    if key = "OBJGRAPH_MAX_NODES_PER_INTERFACE" then some "\t-9223372036854775808 "
    else if key = "OBJGRAPH_MERGE_DEPTH" then some "+07" else none) =
      .ok { standard with maxInterface := none, mergeDepth := 7 } := by
  decide

end Options

end HeapSummary
