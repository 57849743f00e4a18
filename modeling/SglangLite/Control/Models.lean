import SglangLite.Control.Admission

set_option autoImplicit false

namespace SglangLite.Control.Models

structure MoEFamily where
  name : String
  modelTypes : List String
  deriving DecidableEq, Repr

def mixtral : MoEFamily := ⟨"mixtral",["mixtral"]⟩
def qwenMoe : MoEFamily := ⟨"qwen_moe",["qwen2_moe","qwen3_moe"]⟩
def deepseekMoe : MoEFamily := ⟨"deepseek_moe",["deepseek_v2","deepseek_v3","deepseek_moe"]⟩
def deepseekV4 : MoEFamily := ⟨"deepseek_v4",["deepseek_v4"]⟩
def minimaxMoe : MoEFamily := ⟨"minimax_moe",["minimax_m2","minimax_m3","minimax"]⟩

def legacyFamilies : List MoEFamily := [mixtral,qwenMoe,deepseekMoe,minimaxMoe]

def families : List MoEFamily := deepseekV4 :: legacyFamilies

/-- What the checks may raise. `UnicodeDecodeError` is a `ValueError`. -/
inductive Raised where
  | valueError (text : String)
  | unicodeDecodeError (text : String)
  | attributeError (text : String)
  deriving DecidableEq, Repr

def Raised.isValueError : Raised → Bool
  | .valueError _ => true
  | .unicodeDecodeError _ => true
  | .attributeError _ => false

/-- `config.json` of a directory: missing, not readable or no JSON, not UTF-8,
or a value. -/
inductive LocalConfig where
  | missing
  | unreadable
  | undecodable (text : String)
  | value (v : Json)

/-- What the checks ask the host for: `SGLANG_LITE_V4_ONLY`, the files below a
path, and the texts of `repr` and of the error of `.get` on a value that is no
object. -/
structure Host where
  env : Option String
  config : String → LocalConfig
  repr : String → String
  noGet : Json → String

/-- `str.lower`, except for characters that are outside ASCII before and
after. -/
def lowerChar (c : Char) : List Char :=
  if c = Char.ofNat 0x130 then ['i',Char.ofNat 0x307]
  else if c = Char.ofNat 0x212A then ['k']
  else [c.toLower]

def lower (s : String) : String := String.ofList (s.toList.flatMap lowerChar)

/-- `str.isspace` of a character. -/
def isSpace (c : Char) : Bool :=
  let n := c.toNat
  (9 ≤ n && n ≤ 13) || (28 ≤ n && n ≤ 32) || n == 0x85 || n == 0xA0 || n == 0x1680 ||
    (0x2000 ≤ n && n ≤ 0x200A) || n == 0x2028 || n == 0x2029 || n == 0x202F || n == 0x205F || n == 0x3000

def strip (s : String) : String :=
  String.ofList (((s.toList.dropWhile isSpace).reverse.dropWhile isSpace).reverse)

def v4OnlyEnabled (env : Option String) : Bool :=
  !(["0","false","no","off"].contains (lower (strip (env.getD "1"))))

def isFixtureModel (id : String) : Bool :=
  decide ("fixture:".toList <+: id.toList) || decide ("local:".toList <+: id.toList)

def familyForModelType : Option String → Option MoEFamily
  | none => none
  | some ty =>
      if ty = "" then none else families.find? fun f => f.modelTypes.contains (lower ty)

def stringField (k : String) (v : Json) : Option String :=
  match v.field k with
  | some (.string s) => if s = "" then none else some s
  | _ => none

def modelTypeFromLocalConfig (host : Host) (id : String) : Except Raised (Option String) :=
  let root :=
    if isFixtureModel id then String.ofList ((id.toList.dropWhile (· ≠ ':')).drop 1) else id
  match host.config root with
  | .missing => .ok none
  | .unreadable => .ok none
  | .undecodable text => .error (.unicodeDecodeError text)
  | .value (.object o) =>
      match stringField "model_type" (.object o) with
      | some ty => .ok (some ty)
      | none =>
          match (Json.object o).field "text_config" with
          | some (.object t) => .ok (stringField "model_type" (.object t))
          | _ => .ok none
  | .value v => .error (.attributeError (host.noGet v))

/-- The substring heuristics of `_resolve_family`. -/
def nameFamily (name : String) : Option MoEFamily :=
  if containsText name "deepseek" && containsText name "v4" then some deepseekV4
  else if containsText name "ds-v4" || containsText name "deepseek-v4" then some deepseekV4
  else if containsText name "mixtral" then some mixtral
  else if containsText name "qwen" && containsText name "moe" then some qwenMoe
  else if containsText name "qwen" && (containsText name "a3b" || containsText name "a14b" ||
      containsText name "a2.7b" || containsText name "-moe") then some qwenMoe
  else if containsText name "deepseek" && (containsText name "moe" || containsText name "v2" ||
      containsText name "v3") then some deepseekMoe
  else if containsText name "minimax" then some minimaxMoe
  else none

def unsupported (id : String) : Raised :=
  .valueError ("model '" ++ id ++ "' is not a supported MoE family "
    ++ "(deepseek_v4 primary; legacy: mixtral / qwen-moe / deepseek-moe / minimax). "
    ++ "Dense models are out of scope.")

def notFlash (host : Host) (f : MoEFamily) (id : String) : Raised :=
  .valueError ("sglang-lite is DeepSeek-V4-Flash only (got family=" ++ host.repr f.name
    ++ " for model=" ++ host.repr id ++ "). "
    ++ "Set SGLANG_LITE_V4_ONLY=0 only for legacy multi-MoE experiments. See docs/v4-flash-only.md.")

def localFamily (host : Host) (id : String) : Option String → Except Raised (Option MoEFamily)
  | some _ => .ok none
  | none => (modelTypeFromLocalConfig host id).map familyForModelType

def resolveFamily (host : Host) (id : String) (modelType : Option String) : Except Raised MoEFamily :=
  if isFixtureModel id || id == "stub" then .ok mixtral
  else
    match familyForModelType modelType with
    | some f => .ok f
    | none =>
        match localFamily host id modelType with
        | .error e => .error e
        | .ok (some f) => .ok f
        | .ok none =>
            match nameFamily (lower id) with
            | some f => .ok f
            | none => .error (unsupported id)

def assertV4FlashOnly (host : Host) (id : String) (modelType : Option String) :
    Except Raised MoEFamily :=
  if isFixtureModel id || id == "stub" then .ok mixtral
  else
    match resolveFamily host id modelType with
    | .error e => .error e
    | .ok f => if f.name ≠ deepseekV4.name then .error (notFlash host f id) else .ok f

def assertMoeSupported (host : Host) (id : String) (modelType : Option String) :
    Except Raised MoEFamily :=
  if isFixtureModel id || id == "stub" then .ok mixtral
  else if v4OnlyEnabled host.env then assertV4FlashOnly host id modelType
  else resolveFamily host id modelType

def RaisesValueError (r : Except Raised MoEFamily) : Prop :=
  ∃ e, r = .error e ∧ e.isValueError = true

def Declared (host : Host) (id : String) (modelType : Option String) (ty : String) : Prop :=
  ty ≠ "" ∧ (modelType = some ty ∨ modelType = none ∧ modelTypeFromLocalConfig host id = .ok (some ty))

def V4Named (name : String) : Prop :=
  containsText name "ds-v4" = true ∨ containsText name "deepseek" = true ∧ containsText name "v4" = true

def Misleading (name : String) : Prop :=
  V4Named name ∨ containsText name "mixtral" = true ∨ containsText name "minimax" = true ∨
    (containsText name "qwen" = true ∧ (containsText name "moe" = true ∨ containsText name "a3b" = true ∨
      containsText name "a14b" = true ∨ containsText name "a2.7b" = true)) ∨
    containsText name "deepseek" = true ∧ (containsText name "moe" = true ∨
      containsText name "v2" = true ∨ containsText name "v3" = true)

theorem containsText_of_part {c s t : String} (h : s.toList <:+: t.toList)
    (ht : containsText c t = true) : containsText c s = true := by
  simp only [containsText,decide_eq_true_eq] at ht ⊢
  exact h.trans ht

theorem nameFamily_v4 {name : String} : nameFamily name = some deepseekV4 ↔ V4Named name := by
  have hlong := fun h => containsText_of_part (c := name) (s := "deepseek") (t := "deepseek-v4")
    (by decide) h
  have hlong' := fun h => containsText_of_part (c := name) (s := "v4") (t := "deepseek-v4")
    (by decide) h
  rw [nameFamily,V4Named]
  split_ifs with h1 h2
  · simp only [Bool.and_eq_true] at h1
    simp [h1]
  · simp only [Bool.or_eq_true] at h2
    simp only [true_iff]
    exact h2.imp id fun h => ⟨hlong h,hlong' h⟩
  all_goals
    simp only [Bool.and_eq_true,Bool.or_eq_true,not_or] at h1 h2
    simp [h1,h2,mixtral,qwenMoe,deepseekMoe,minimaxMoe,deepseekV4]

theorem nameFamily_none {name : String} : nameFamily name = none ↔ ¬ Misleading name := by
  by_cases hv4 : V4Named name
  · rw [nameFamily_v4.mpr hv4]
    exact ⟨fun h => (by cases h),fun h => absurd (.inl hv4) h⟩
  · have hlong : ¬ containsText name "deepseek-v4" = true := fun ht =>
      hv4 (.inr ⟨containsText_of_part (by decide) ht,containsText_of_part (by decide) ht⟩)
    have h1 : ¬ (containsText name "deepseek" = true ∧ containsText name "v4" = true) := fun h =>
      hv4 (.inr h)
    have h2 : ¬ (containsText name "ds-v4" = true ∨ containsText name "deepseek-v4" = true) := fun h =>
      h.elim (fun h => hv4 (.inl h)) hlong
    rw [nameFamily,Misleading]
    simp only [Bool.and_eq_true,Bool.or_eq_true]
    rw [if_neg h1,if_neg h2]
    split_ifs with h3 h4 h5 h6 h7
    · exact ⟨fun h => (by cases h),fun h => absurd (.inr (.inl h3)) h⟩
    · exact ⟨fun h => (by cases h),fun h => absurd (.inr (.inr (.inr (.inl ⟨h4.1,.inl h4.2⟩)))) h⟩
    · refine ⟨fun h => (by cases h),fun h => absurd (.inr (.inr (.inr (.inl ⟨h5.1,?_⟩)))) h⟩
      rcases h5.2 with ((ha | ha) | ha) | ha
      · exact .inr (.inl ha)
      · exact .inr (.inr (.inl ha))
      · exact .inr (.inr (.inr ha))
      · exact .inl (containsText_of_part (by decide) ha)
    · refine ⟨fun h => (by cases h),fun h => absurd (.inr (.inr (.inr (.inr ⟨h6.1,?_⟩)))) h⟩
      exact or_assoc.mp h6.2
    · exact ⟨fun h => (by cases h),fun h => absurd (.inr (.inr (.inl h7))) h⟩
    · refine ⟨fun _ => ?_,fun _ => rfl⟩
      rintro (h | h | h | ⟨hq,h⟩ | ⟨hd,h⟩)
      · exact hv4 h
      · exact h3 h
      · exact h7 h
      · rcases h with h | h | h | h
        · exact h4 ⟨hq,h⟩
        · exact h5 ⟨hq,.inl (.inl (.inl h))⟩
        · exact h5 ⟨hq,.inl (.inl (.inr h))⟩
        · exact h5 ⟨hq,.inl (.inr h)⟩
      · exact h6 ⟨hd,or_assoc.mpr h⟩

theorem family_of_name {f : MoEFamily} (h : f ∈ families) (hname : f.name = deepseekV4.name) :
    f = deepseekV4 := by
  revert f
  decide

theorem nameFamily_mem {name : String} {f : MoEFamily} (h : nameFamily name = some f) :
    f ∈ families := by
  rw [nameFamily] at h
  split_ifs at h <;> cases h <;> decide

theorem familyForModelType_mem {modelType : Option String} {f : MoEFamily}
    (h : familyForModelType modelType = some f) : f ∈ families := by
  cases modelType with
  | none => cases h
  | some ty =>
    rw [familyForModelType] at h
    split_ifs at h
    exact List.mem_of_find?_eq_some h

section Unsupported

variable {host : Host} {id ty : String} {modelType : Option String}

/-- An unsupported declared type leaves the decision to the name. -/
theorem resolveFamily_unsupported (hid : isFixtureModel id = false) (hstub : id ≠ "stub")
    (hd : Declared host id modelType ty) (hty : familyForModelType (some ty) = none) :
    resolveFamily host id modelType = match nameFamily (lower id) with
      | some f => .ok f
      | none => .error (unsupported id) := by
  have hnot : (isFixtureModel id || id == "stub") = false := by simp [hid,hstub]
  rw [resolveFamily,hnot]
  obtain ⟨_,rfl | ⟨rfl,hlocal⟩⟩ := hd
  · rw [hty]
    rfl
  · simp only [familyForModelType,localFamily,hlocal,Except.map] at hty ⊢
    rw [hty]
    rfl

theorem resolveFamily_raises (hid : isFixtureModel id = false) (hstub : id ≠ "stub")
    (hd : Declared host id modelType ty) (hty : familyForModelType (some ty) = none) :
    RaisesValueError (resolveFamily host id modelType) ↔ ¬ Misleading (lower id) := by
  rw [resolveFamily_unsupported hid hstub hd hty,← nameFamily_none]
  cases nameFamily (lower id) with
  | none => exact ⟨fun _ => rfl,fun _ => ⟨_,rfl,rfl⟩⟩
  | some f =>
    constructor
    · rintro ⟨e,he,_⟩
      cases he
    · intro h
      cases h

theorem assertV4FlashOnly_ok {f : MoEFamily} (hid : isFixtureModel id = false) (hstub : id ≠ "stub")
    (h : assertV4FlashOnly host id modelType = .ok f) :
    resolveFamily host id modelType = .ok f ∧ f.name = deepseekV4.name := by
  have hnot : (isFixtureModel id || id == "stub") = false := by simp [hid,hstub]
  rw [assertV4FlashOnly,hnot] at h
  cases hr : resolveFamily host id modelType with
  | error e => simp [hr] at h
  | ok g =>
    simp only [hr,Bool.false_eq_true,if_false] at h
    split_ifs at h with hname
    · cases h
      exact ⟨rfl,not_not.mp hname⟩

theorem assertV4FlashOnly_raises (hid : isFixtureModel id = false) (hstub : id ≠ "stub")
    (hd : Declared host id modelType ty) (hty : familyForModelType (some ty) = none) :
    RaisesValueError (assertV4FlashOnly host id modelType) ↔ ¬ V4Named (lower id) := by
  have hnot : (isFixtureModel id || id == "stub") = false := by simp [hid,hstub]
  rw [assertV4FlashOnly,hnot,resolveFamily_unsupported hid hstub hd hty,← nameFamily_v4]
  cases hf : nameFamily (lower id) with
  | none => simp [RaisesValueError,unsupported,Raised.isValueError]
  | some f =>
    by_cases h4 : f = deepseekV4
    · subst h4
      simp [RaisesValueError]
    · have : f.name ≠ deepseekV4.name := fun h => h4 (family_of_name (nameFamily_mem hf) h)
      simp [this,h4,RaisesValueError,notFlash,Raised.isValueError]

theorem resolveFamily_mem {f : MoEFamily} (hid : isFixtureModel id = false) (hstub : id ≠ "stub")
    (h : resolveFamily host id modelType = .ok f) : f ∈ families := by
  have hnot : (isFixtureModel id || id == "stub") = false := by simp [hid,hstub]
  rw [resolveFamily,hnot] at h
  simp only [Bool.false_eq_true,if_false] at h
  split at h
  · next g hg =>
    cases h
    exact familyForModelType_mem hg
  · split at h
    · cases h
    · next g hl =>
      cases h
      cases modelType with
      | some ty => cases hl
      | none =>
        rw [localFamily] at hl
        cases hm : modelTypeFromLocalConfig host id with
        | error e => simp [hm,Except.map] at hl
        | ok mt =>
          simp only [hm,Except.map,Except.ok.injEq] at hl
          exact familyForModelType_mem hl
    · split at h
      · next g hg =>
        cases h
        exact nameFamily_mem hg
      · cases h

theorem unsupported_type_rejected_iff (hid : isFixtureModel id = false) (hstub : id ≠ "stub")
    (hd : Declared host id modelType ty) (hty : familyForModelType (some ty) = none) :
    ((∀ env, RaisesValueError (assertMoeSupported { host with env := env } id modelType)) ↔
        ¬ Misleading (lower id)) ∧
      (∀ env, v4OnlyEnabled env = true →
        (RaisesValueError (assertMoeSupported { host with env := env } id modelType) ↔
          ¬ V4Named (lower id))) ∧
      (∀ env, v4OnlyEnabled env = false →
        (RaisesValueError (assertMoeSupported { host with env := env } id modelType) ↔
          ¬ Misleading (lower id))) ∧
      ∀ env declared f, v4OnlyEnabled env = true →
        assertMoeSupported { host with env := env } id declared = .ok f → f = deepseekV4 := by
  have hnot : (isFixtureModel id || id == "stub") = false := by simp [hid,hstub]
  have hon : ∀ env declared, v4OnlyEnabled env = true →
      assertMoeSupported { host with env := env } id declared =
        assertV4FlashOnly { host with env := env } id declared := fun env declared henv => by
    simp only [assertMoeSupported,hnot,henv,Bool.false_eq_true,if_false,if_true]
  have hoff : ∀ env, v4OnlyEnabled env = false →
      assertMoeSupported { host with env := env } id modelType =
        resolveFamily { host with env := env } id modelType := fun env henv => by
    simp only [assertMoeSupported,hnot,henv,Bool.false_eq_true,if_false]
  have hstrict : ∀ env, v4OnlyEnabled env = true →
      (RaisesValueError (assertMoeSupported { host with env := env } id modelType) ↔
        ¬ V4Named (lower id)) := fun env henv => by
    rw [hon env modelType henv]
    exact assertV4FlashOnly_raises hid hstub hd hty
  have hlegacy : ∀ env, v4OnlyEnabled env = false →
      (RaisesValueError (assertMoeSupported { host with env := env } id modelType) ↔
        ¬ Misleading (lower id)) := fun env henv => by
    rw [hoff env henv]
    exact resolveFamily_raises hid hstub hd hty
  refine ⟨⟨fun hall => ?_,fun hno env => ?_⟩,hstrict,hlegacy,fun env declared f henv h => ?_⟩
  · exact (hlegacy (some "0") (by decide +kernel)).mp (hall (some "0"))
  · cases henv : v4OnlyEnabled env with
    | true => exact (hstrict env henv).mpr fun h4 => hno (.inl h4)
    | false => exact (hlegacy env henv).mpr hno
  · rw [hon env declared henv] at h
    obtain ⟨hres,hname⟩ := assertV4FlashOnly_ok hid hstub h
    exact family_of_name (resolveFamily_mem hid hstub hres) hname

end Unsupported

def remote : Host where
  env := none
  config := fun _ => .missing
  repr := fun s => "'" ++ s ++ "'"
  noGet := fun _ => "'list' object has no attribute 'get'"

theorem dense_llama_rejected :
    RaisesValueError (assertMoeSupported { remote with env := some "0" } "meta-llama/Llama-3-8B"
      (some "llama")) := by
  refine ((@unsupported_type_rejected_iff remote "meta-llama/Llama-3-8B" "llama" (some "llama")
    (by decide +kernel) (by decide +kernel) ⟨by decide,.inl rfl⟩
    (by decide +kernel)).2.2.1 (some "0") (by decide +kernel)).mpr ?_
  rw [← nameFamily_none]
  decide +kernel

theorem dense_llama_accepted_by_name :
    familyForModelType (some "llama") = none ∧
      assertMoeSupported remote "/data/deepseek-r1-v4-distill-llama" (some "llama") = .ok deepseekV4 ∧
      assertMoeSupported { remote with env := some "0" } "/data/mixtral-merge-llama" (some "llama") =
        .ok mixtral := by
  decide +kernel

end SglangLite.Control.Models
