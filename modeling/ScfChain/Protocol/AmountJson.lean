import ScfChain.Protocol.TextRoundTrip

/-!
# Amounts in JSON

`amountFromJson` takes an amount as a plain value, as an object, as an array or as text with separators. The value in it is a
number or a text.

* `Shape` : the shapes; `Names` says which issue the fields of a shape name.
* `amountFromJson_iff` : the text of a number gives the same amount in every shape, and exactly which numbers do as well.
-/

namespace ScfChain.Protocol

open Data STAmount

/-- `Json::Value`. Numbers are `int` or `unsigned int`. -/
inductive Json
  | null
  | int (n : BitVec 32)
  | uint (n : BitVec 32)
  | real (x : ℚ)
  | string (s : List Char)
  | boolean (b : Bool)
  | array (values : List Json)
  | object (members : List (String × Json))

namespace Json

def isString : Json → Bool
  | string _ => true
  | _ => false

/-- `asString`, of a text. -/
def text : Json → List Char
  | string s => s
  | _ => []

def isObjectOrNull : Json → Bool
  | null => true
  | object _ => true
  | _ => false

/-- `operator[]` with a key, of an object. -/
def member (members : List (String × Json)) (key : String) : Json :=
  ((members.find? fun m => m.1 = key).map Prod.snd).getD null

/-- `beast::lexicalCastThrow <unsigned int>`. -/
def parseUnsigned : List Char → Except String (BitVec 32)
  | '+' :: s => (lexicalCastThrow (2 ^ 32 - 1) s).map (BitVec.ofNat 32)
  | s => (lexicalCastThrow (2 ^ 32 - 1) s).map (BitVec.ofNat 32)

def asUInt : Json → Except String (BitVec 32)
  | null => .ok 0
  | int n => if 0 ≤ n.toInt then .ok n else .error "Negative integer can not be converted to unsigned integer"
  | uint n => .ok n
  | real x => if 0 ≤ x ∧ x ≤ 2 ^ 32 - 1 then .ok (BitVec.ofInt 32 ⌊x⌋) else .error "Real out of unsigned integer range"
  | string s => parseUnsigned s
  | boolean b => .ok (if b then 1 else 0)
  | array _ => .error "Type is not convertible to uint"
  | object _ => .error "Type is not convertible to uint"

end Json

open Json

/-! ## `amountFromJson` -/

/-- `systemCurrencyCode ()` -/
def systemCurrencyCode : List Char := ['S', 'F', 'C']

/-- The characters that separate the fields of a text. -/
def isSeparator (c : Char) : Bool := c ∈ ['\t', '\n', '\r', ' ', ',', '/']

/-- Value, currency and issuer. -/
def jsonFields : Json → Except String (Json × Json × Json)
  | .null => .error "SFC may not be specified with a null Json value"
  | .object members => .ok (member members "value", member members "currency", member members "issuer")
  | .array values => .ok (values.getD 0 (.int 0), values.getD 1 .null, values.getD 2 .null)
  | .string val =>
    let elements := val.splitOnP isSeparator
    if 3 < elements.length then .error "invalid amount string"
    else
      .ok (.string (elements.getD 0 []), (elements[1]?.map Json.string).getD .null, (elements[2]?.map Json.string).getD .null)
  | v => .ok (v, .null, .null)

def isNativeField (currency : Json) : Bool :=
  !currency.isString || currency.text = [] || currency.text = systemCurrencyCode

section

variable (to_currency to_issuer : List Char → Option (BitVec 160))

/-- The issue the fields name. -/
def jsonIssue (v currency issuer : Json) : Except String Issue :=
  if isNativeField currency then
    if v.isObjectOrNull then .error "SFC may not be specified as an object" else .ok ⟨0, 0⟩
  else
    match to_currency currency.text with
    | none => .error "invalid currency"
    | some cur =>
      if issuer.isString then
        match to_issuer issuer.text with
        | none => .error "invalid issuer"
        | some account => if isSFC cur then .error "invalid issuer" else .ok ⟨cur, account⟩
      else .error "invalid issuer"

/-- Mantissa, exponent and sign of the value. The unsigned number is taken from `v`, not from `value`. -/
def jsonValue (v value : Json) (issue : Issue) : Except String (BitVec 64 × ℤ × Bool) :=
  match value with
  | .int n => if 0 ≤ n.toInt then .ok (n.signExtend 64, 0, false) else .ok ((-n).signExtend 64, 0, true)
  | .uint _ => do
    let n ← v.asUInt
    return (n.setWidth 64, 0, false)
  | .string s => do
    let ret ← amountFromString issue s
    return (ret.mValue, ret.mOffset, ret.mIsNegative)
  | _ => .error "invalid amount type"

def amountFromJson (v : Json) : Except String STAmount := do
  let (value, currency, issuer) ← jsonFields v
  let issue ← jsonIssue to_currency to_issuer v currency issuer
  let (mantissa, exponent, negative) ← jsonValue v value issue
  canonicalize ⟨issue, mantissa, exponent, isNativeField currency, negative⟩

end

/-! ## Shapes -/

/-- A JSON number that is an integer. -/
inductive JsonNumber
  | int (n : BitVec 32)
  | uint (n : BitVec 32)

namespace JsonNumber

def toInt : JsonNumber → ℤ
  | int n => n.toInt
  | uint n => n.toNat

def json : JsonNumber → Json
  | int n => .int n
  | uint n => .uint n

/-- Its decimal text. -/
def text (n : JsonNumber) : List Char := intText n.toInt

end JsonNumber

/-- The shapes of an amount around its value. The fields after the value are currency and issuer. -/
inductive Shape
  | plain
  | object (currency issuer : List Char)
  | array (fields : List (List Char))

def Shape.json (value : Json) : Shape → Json
  | plain => value
  | object currency issuer => .object [("value", value), ("currency", .string currency), ("issuer", .string issuer)]
  | array fields => .array (value :: fields.map Json.string)

/-- Value and fields with slashes between them. -/
def slashed (value : List Char) (fields : List (List Char)) : List Char := value ++ fields.flatMap fun f => '/' :: f

section

variable (to_currency to_issuer : List Char → Option (BitVec 160))

/-- Currency and issuer name an issued currency. -/
def NamesIssued (issue : Issue) (currency issuer : List Char) : Prop :=
  currency ≠ [] ∧ currency ≠ systemCurrencyCode ∧ to_currency currency = some issue.currency ∧ issue.currency ≠ 0 ∧
    to_issuer issuer = some issue.account

/-- The fields name the issue: none, or the code of the system currency, for the native one. -/
def FieldsName (issue : Issue) (fields : List (List Char)) : Prop :=
  fields.length ≤ 2 ∧ issue = ⟨0, 0⟩ ∧ (∀ currency ∈ fields.head?, currency = [] ∨ currency = systemCurrencyCode) ∨
    ∃ currency issuer, fields = [currency, issuer] ∧ NamesIssued to_currency to_issuer issue currency issuer

/-- The shape is accepted for the issue. -/
def Shape.Names (issue : Issue) : Shape → Prop
  | plain => issue = ⟨0, 0⟩
  | object currency issuer => NamesIssued to_currency to_issuer issue currency issuer
  | array fields => FieldsName to_currency to_issuer issue fields

end

/-- The numbers that are read as their text is: an `int` whose sign can be changed, and an `unsigned int` that is the whole
amount. -/
def JsonNumber.Sound : JsonNumber → Shape → Prop
  | int n, _ => n ≠ BitVec.intMin 32
  | uint _, shape => shape = .plain

/-! ## Small amounts -/

theorem small_amount (issue : Issue) {k : ℤ} (hk : k.natAbs < 2 ^ 33) :
    ∃ a : STAmount, ∀ native, canonicalize ⟨issue, BitVec.ofNat 64 k.natAbs, 0, native, k < 0⟩ = .ok a ∧
      canonicalize ⟨issue, a.mValue, a.mOffset, native, a.mIsNegative⟩ = .ok a := by
  have hlt : k.natAbs < 2 ^ 64 := by omega
  by_cases hcur : issue.currency = 0
  · have hw : k.natAbs = k.natAbs / 10 ^ (-(0 : ℤ)).toNat * 10 ^ (0 : ℤ).toNat % 2 ^ 64 := by
      simpa using (Nat.mod_eq_of_lt hlt).symm
    refine ⟨⟨issue, BitVec.ofNat 64 k.natAbs, 0, true, decide (k < 0) && k.natAbs ≠ 0⟩, fun native => ⟨?_, ?_⟩⟩
    · rw [canonicalize_native _ _ hcur hlt hw, if_neg (by omega)]
    · rw [canonicalize_native _ _ hcur hlt hw, if_neg (by omega), Bool.and_assoc, Bool.and_self]
  · have hbound : (k.natAbs : ℚ) * 10 ^ (0 : ℤ) < 10 * format.lo * 10 ^ format.emax := by
      have hsmall : (k.natAbs : ℚ) < 2 ^ 33 := by exact_mod_cast hk
      rw [zpow_zero, mul_one, show format.lo = 10 ^ 15 from rfl, show format.emax = 80 from rfl]
      refine hsmall.trans ?_
      norm_num
    obtain ⟨p, hp⟩ := Format.normalize_isSome hbound
    have hagain : format.normalize p.1 p.2 = some p := by
      rcases Format.normalize_cases hp with ⟨hzero, hexp, -⟩ | ⟨hnormal, -⟩
      · rw [Format.normalize, if_pos hzero, ← hzero, ← hexp]
      · exact Format.normalize_of_normal hnormal
    have hofNat : (BitVec.ofNat 64 p.1).toNat = p.1 := by rw [BitVec.toNat_ofNat, Nat.mod_eq_of_lt (normalize_lt hp)]
    refine ⟨ofNormal issue (k < 0) p, fun native => ⟨?_, ?_⟩⟩
    · rw [canonicalize_issued hcur, BitVec.toNat_ofNat, Nat.mod_eq_of_lt hlt, hp]
      rfl
    · have hcanon : canonicalize ⟨issue, BitVec.ofNat 64 p.1, p.2, native, decide (k < 0) && p.1 ≠ 0⟩ = _ :=
        canonicalize_issued hcur
      rw [hofNat, hagain] at hcanon
      rw [ofNormal, hcanon, Option.elim_some, ofNormal, Bool.and_assoc, Bool.and_self]

theorem amountFromString_intText (issue : Issue) {k : ℤ} (hk : k.natAbs < 2 ^ 33) :
    amountFromString issue (intText k) = canonicalize ⟨issue, BitVec.ofNat 64 k.natAbs, 0, false, k < 0⟩ := by
  have hwhole : Nat.toDigits 10 k.natAbs = ['0'] ∨
      Digits (Nat.toDigits 10 k.natAbs) ∧ (Nat.toDigits 10 k.natAbs).head? ≠ some '0' := by
    rcases Nat.eq_zero_or_pos k.natAbs with hzero | hpos
    · rw [hzero]
      exact .inl rfl
    · exact .inr ⟨digits_toDigits _, head_toDigits hpos⟩
  have hvalid : (Match.mk none (Nat.toDigits 10 k.natAbs) none none).Valid := ⟨by simp, hwhole, by simp, by simp⟩
  have hmant : (Match.mk none (Nat.toDigits 10 k.natAbs) none none).mantissa = k.natAbs := by
    simp [Match.mantissa, Match.fractionDigits]
  have htext : intText k = ((Match.mk none (Nat.toDigits 10 k.natAbs) none none).withSign (k < 0)).text := by
    rw [← Match.withSign_text rfl, intText]
    by_cases hneg : k < 0 <;> simp [hneg, Match.text, fractionText, exponentText]
  have hlen : (Nat.toDigits 10 k.natAbs).length ≤ 32 :=
    (Nat.length_toDigits_le_iff (by norm_num) (by norm_num)).mpr (by omega)
  have hscan : ((Match.mk none (Nat.toDigits 10 k.natAbs) none none).withSign (k < 0)).scan issue (intText k) =
      .ok (k.natAbs, 0) := by
    have hfits : Match.scan _ issue (intText k) = _ := Match.scan_of_fits (Match.withSign_valid hvalid (k < 0)) (intText k)
      (by simpa [Match.withSign, Match.fractionDigits] using hlen) (fun _ => rfl) (hmant.trans_lt (by omega))
      (by simp [Match.withSign])
    rw [hfits]
    exact congrArg Except.ok (Prod.ext hmant rfl)
  rw [amountFromString_of_scan (Match.withSign_valid hvalid (k < 0)) htext hscan]
  by_cases hneg : k < 0 <;> simp [hneg, Match.withSign]

/-! ## The fields of a shape -/

theorem isSeparator_intText (k : ℤ) : ∀ c ∈ intText k, isSeparator c = false := by
  have hdigit : ∀ c ∈ Nat.toDigits 10 k.natAbs, isSeparator c = false := by
    intro c hc
    have hc := (digits_toDigits k.natAbs).2 c hc
    cases h : isSeparator c with
    | false => rfl
    | true =>
      simp only [isSeparator, List.mem_cons, List.not_mem_nil, or_false, decide_eq_true_eq] at h
      rcases h with rfl | rfl | rfl | rfl | rfl | rfl <;> exact absurd hc (by decide)
  intro c hc
  unfold intText at hc
  split_ifs at hc
  · rcases List.mem_cons.mp hc with rfl | hc
    · rfl
    · exact hdigit c hc
  · exact hdigit c hc

section

variable {to_currency to_issuer : List Char → Option (BitVec 160)} {issue : Issue}

theorem jsonIssue_native {v currency : Json} (hv : v.isObjectOrNull = false) (hcur : isNativeField currency = true)
    (issuer : Json) : jsonIssue to_currency to_issuer v currency issuer = .ok ⟨0, 0⟩ := by
  rw [jsonIssue, if_pos hcur, hv, if_neg Bool.false_ne_true]

theorem NamesIssued.jsonIssue {currency issuer : List Char} (h : NamesIssued to_currency to_issuer issue currency issuer)
    (v : Json) : jsonIssue to_currency to_issuer v (.string currency) (.string issuer) = .ok issue := by
  obtain ⟨hne, hsys, hcur, hzero, hissuer⟩ := h
  have hnative : isNativeField (.string currency) = false := by simp [isNativeField, isString, text, hne, hsys]
  have hsfc : isSFC issue.currency = false := by simpa [isSFC] using hzero
  rw [Protocol.jsonIssue, hnative, if_neg Bool.false_ne_true]
  simp only [text, hcur, isString, if_true, hissuer, hsfc]
  rfl

theorem FieldsName.jsonIssue {fields : List (List Char)} (h : FieldsName to_currency to_issuer issue fields) {v : Json}
    (hv : v.isObjectOrNull = false) :
    fields.length ≤ 2 ∧ Protocol.jsonIssue to_currency to_issuer v ((fields[0]?.map Json.string).getD .null)
      ((fields[1]?.map Json.string).getD .null) = .ok issue := by
  rcases h with ⟨hlen, rfl, hhead⟩ | ⟨currency, issuer, rfl, hnames⟩
  · refine ⟨hlen, jsonIssue_native hv ?_ _⟩
    cases fields with
    | nil => rfl
    | cons f fields =>
      rcases hhead f rfl with rfl | rfl
      · rfl
      · rfl
  · exact ⟨le_rfl, hnames.jsonIssue v⟩

theorem amountFromJson_of_fields {v value currency issuer : Json} (hfields : jsonFields v = .ok (value, currency, issuer))
    (hissue : jsonIssue to_currency to_issuer v currency issuer = .ok issue) :
    amountFromJson to_currency to_issuer v =
      (jsonValue v value issue >>= fun r => canonicalize ⟨issue, r.1, r.2.1, isNativeField currency, r.2.2⟩) := by
  unfold amountFromJson
  rw [hfields, ok_bind]
  dsimp only
  rw [hissue, ok_bind]

theorem Shape.Names.amountFromJson {shape : Shape} (h : shape.Names to_currency to_issuer issue) {value : Json}
    (hvalue : jsonFields value = .ok (value, .null, .null)) (hv : value.isObjectOrNull = false) :
    ∃ native, Protocol.amountFromJson to_currency to_issuer (shape.json value) =
      (jsonValue (shape.json value) value issue >>= fun r => canonicalize ⟨issue, r.1, r.2.1, native, r.2.2⟩) := by
  cases shape with
  | plain =>
    obtain rfl := h
    exact ⟨_, amountFromJson_of_fields hvalue (jsonIssue_native hv rfl .null)⟩
  | object currency issuer => exact ⟨_, amountFromJson_of_fields rfl (NamesIssued.jsonIssue h _)⟩
  | array fields =>
    obtain ⟨hlen, hissue⟩ := FieldsName.jsonIssue h (v := Shape.json value (.array fields)) rfl
    refine ⟨_, amountFromJson_of_fields ?_ hissue⟩
    simp [Shape.json, jsonFields, List.getD_eq_getElem?_getD]

theorem amountFromJson_slashed {fields : List (List Char)} (h : FieldsName to_currency to_issuer issue fields)
    (hsep : ∀ f ∈ fields, ∀ c ∈ f, isSeparator c = false) {s : List Char} (hs : ∀ c ∈ s, isSeparator c = false) :
    ∃ native, amountFromJson to_currency to_issuer (.string (slashed s fields)) =
      (jsonValue (.string (slashed s fields)) (.string s) issue >>= fun r =>
        canonicalize ⟨issue, r.1, r.2.1, native, r.2.2⟩) := by
  have hsplit : ∀ {fs : List (List Char)} {s : List Char}, (∀ f ∈ fs, ∀ c ∈ f, isSeparator c = false) →
      (∀ c ∈ s, isSeparator c = false) → (slashed s fs).splitOnP isSeparator = s :: fs := by
    intro fs
    induction fs with
    | nil =>
      intro s _ hs
      rw [slashed, List.flatMap_nil, List.append_nil, List.splitOnP_eq_singleton hs]
    | cons f fs ih =>
      intro s hfs hs
      rw [slashed, List.flatMap_cons, List.cons_append, List.splitOnP_append_cons_of_forall_mem hs '/' rfl]
      exact congrArg _ (ih (fun g hg => hfs g (List.mem_cons_of_mem f hg)) (hfs f List.mem_cons_self))
  obtain ⟨hlen, hissue⟩ := h.jsonIssue (v := .string (slashed s fields)) rfl
  refine ⟨_, amountFromJson_of_fields ?_ hissue⟩
  simp only [jsonFields, hsplit hsep hs, List.length_cons]
  rw [if_neg (by omega)]
  simp

/-! ## Numbers -/

theorem JsonNumber.natAbs_lt (n : JsonNumber) : n.toInt.natAbs < 2 ^ 33 := by
  cases n with
  | int n =>
    have := n.toInt_lt
    have := n.le_toInt
    simp only [toInt]
    omega
  | uint n =>
    have := n.isLt
    simp only [toInt]
    omega

theorem signExtend_natAbs {n : BitVec 32} (h : n ≠ BitVec.intMin 32) :
    (if 0 ≤ n.toInt then Except.ok (n.signExtend 64, 0, false) else .ok ((-n).signExtend 64, 0, true) :
      Except String (BitVec 64 × ℤ × Bool)) = .ok (BitVec.ofNat 64 n.toInt.natAbs, 0, decide (n.toInt < 0)) := by
  by_cases hn : 0 ≤ n.toInt
  · rw [if_pos hn, BitVec.signExtend, ← BitVec.ofInt_natCast, Int.natAbs_of_nonneg hn]
    simp [hn]
  · rw [if_neg hn, BitVec.signExtend, ← BitVec.ofInt_natCast, BitVec.toInt_neg_of_ne_intMin h]
    have hneg : n.toInt < 0 := by omega
    rw [show ((n.toInt.natAbs : ℕ) : ℤ) = -n.toInt by omega]
    simp [hneg]

theorem canonicalize_intMin (issue : Issue) {native native' : Bool} {a : STAmount}
    (ha : canonicalize ⟨issue, BitVec.ofNat 64 (2 ^ 31), 0, native, true⟩ = .ok a) :
    canonicalize ⟨issue, (-BitVec.intMin 32).signExtend 64, 0, native', true⟩ ≠ .ok a := by
  have hmant : (-BitVec.intMin 32).signExtend 64 = BitVec.ofNat 64 18446744071562067968 := by decide
  rw [hmant]
  by_cases hcur : issue.currency = 0
  · rw [canonicalize_native (w := 18446744071562067968) _ _ hcur (by norm_num) (by norm_num), if_pos (by norm_num)]
    exact fun h => by cases h
  · rw [canonicalize_issued hcur] at ha ⊢
    have hright : format.normalize (BitVec.ofNat 64 (2 ^ 31)).toNat 0 = some (2147483648000000, -6) := by decide +kernel
    have hwrong : format.normalize (BitVec.ofNat 64 18446744071562067968).toNat 0 = some (1844674407156206, 4) := by
      decide +kernel
    rw [hright] at ha
    rw [hwrong]
    intro h
    have hoffset : (-6 : ℤ) = 4 := congrArg STAmount.mOffset (Except.ok.inj (ha.trans h.symm))
    omega

/-- **Numbers and texts.** For every number and issue there is one amount that its text gives in every shape; the number
itself gives it exactly if it is an `int` other than the least one, or an `unsigned int` that is the whole amount. -/
theorem amountFromJson_iff (to_currency to_issuer : List Char → Option (BitVec 160)) (issue : Issue) (n : JsonNumber) :
    ∃ a : STAmount,
      (∀ shape : Shape, shape.Names to_currency to_issuer issue →
        amountFromJson to_currency to_issuer (shape.json (.string n.text)) = .ok a ∧
          (amountFromJson to_currency to_issuer (shape.json n.json) = .ok a ↔ n.Sound shape)) ∧
      ∀ fields, FieldsName to_currency to_issuer issue fields → (∀ f ∈ fields, ∀ c ∈ f, isSeparator c = false) →
        amountFromJson to_currency to_issuer (.string (slashed n.text fields)) = .ok a := by
  obtain ⟨a, ha⟩ := small_amount issue n.natAbs_lt
  have hsep : ∀ c ∈ n.text, isSeparator c = false := isSeparator_intText n.toInt
  have hstring : ∀ v, jsonValue v (.string n.text) issue = .ok (a.mValue, a.mOffset, a.mIsNegative) := by
    intro v
    rw [jsonValue, JsonNumber.text, amountFromString_intText issue n.natAbs_lt, (ha false).1]
    rfl
  refine ⟨a, fun shape hshape => ⟨?_, ?_⟩, fun fields hfields hfree => ?_⟩
  · have htext : jsonFields (.string n.text) = .ok (.string n.text, .null, .null) := by
      simp [jsonFields, List.splitOnP_eq_singleton hsep]
    obtain ⟨native, hread⟩ := hshape.amountFromJson htext rfl
    rw [hread, hstring, ok_bind]
    exact (ha native).2
  · cases n with
    | int k =>
      obtain ⟨native, hread⟩ := hshape.amountFromJson (show jsonFields (.int k) = .ok (.int k, .null, .null) from rfl) rfl
      change amountFromJson to_currency to_issuer (shape.json (.int k)) = .ok a ↔ k ≠ BitVec.intMin 32
      rw [hread, jsonValue]
      by_cases hk : k = BitVec.intMin 32
      · refine iff_of_false ?_ (not_not.mpr hk)
        rw [hk, if_neg (by decide), ok_bind]
        have hmin := (ha false).1
        rw [show (JsonNumber.int k).toInt = -2 ^ 31 by rw [hk]; decide] at hmin
        exact canonicalize_intMin issue hmin
      · refine iff_of_true ?_ hk
        rw [signExtend_natAbs hk, ok_bind]
        exact (ha native).1
    | uint k =>
      obtain ⟨native, hread⟩ := hshape.amountFromJson (show jsonFields (.uint k) = .ok (.uint k, .null, .null) from rfl) rfl
      change amountFromJson to_currency to_issuer (shape.json (.uint k)) = .ok a ↔ shape = .plain
      rw [hread, jsonValue]
      cases shape with
      | plain =>
        refine iff_of_true ?_ rfl
        have hneg : decide ((JsonNumber.uint k).toInt < 0) = false := decide_eq_false (Int.natCast_nonneg k.toNat).not_gt
        have hnat := (ha native).1
        rw [hneg, show (JsonNumber.uint k).toInt.natAbs = k.toNat from rfl, BitVec.ofNat_toNat] at hnat
        exact hnat
      | object currency issuer => exact iff_of_false (fun h => by cases h) (fun h => by cases h)
      | array fields => exact iff_of_false (fun h => by cases h) (fun h => by cases h)
  · obtain ⟨native, hread⟩ := amountFromJson_slashed hfields hfree hsep
    rw [hread, hstring, ok_bind]
    exact (ha native).2

/-- Five units of an issued currency, in an object. -/
theorem amountFromJson_iff_five :
    ∃ a : STAmount,
      amountFromJson (fun _ => some 1) (fun _ => some 2)
        (.object [("value", .string ['5']), ("currency", .string ['U', 'S', 'D']), ("issuer", .string ['r'])]) = .ok a ∧
      amountFromJson (fun _ => some 1) (fun _ => some 2)
        (.object [("value", .int 5), ("currency", .string ['U', 'S', 'D']), ("issuer", .string ['r'])]) = .ok a := by
  obtain ⟨a, ha, -⟩ := amountFromJson_iff (fun _ => some 1) (fun _ => some 2) ⟨1, 2⟩ (.int 5)
  obtain ⟨hstring, hnumber⟩ := ha (.object ['U', 'S', 'D'] ['r']) ⟨by decide, by decide, rfl, by decide, rfl⟩
  exact ⟨a, hstring, hnumber.mpr (show (5 : BitVec 32) ≠ BitVec.intMin 32 by decide)⟩

/-- A number above the range of `int` in an object, and the least `int`. -/
theorem amountFromJson_refuses_uint :
    amountFromJson (fun _ => some 1) (fun _ => some 2)
        (.object [("value", .uint 3000000000), ("currency", .string ['U', 'S', 'D']), ("issuer", .string ['r'])]) =
      .error "Type is not convertible to uint" ∧
    amountFromJson (fun _ => some 1) (fun _ => some 2)
        (.object [("value", .string "3000000000".toList), ("currency", .string ['U', 'S', 'D']), ("issuer", .string ['r'])]) =
      .ok ⟨⟨1, 2⟩, 3000000000000000, -6, false, false⟩ ∧
    amountFromJson (fun _ => some 1) (fun _ => some 2) (.int (BitVec.intMin 32)) =
      .error "Native currency amount out of range" ∧
    amountFromJson (fun _ => some 1) (fun _ => some 2) (.string "-2147483648".toList) =
      .ok ⟨⟨0, 0⟩, 2147483648, 0, true, true⟩ := by
  decide +kernel

end

end ScfChain.Protocol
