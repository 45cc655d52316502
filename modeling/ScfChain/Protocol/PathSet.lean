import ScfChain.Protocol.Serializer

/-!
# Path sets on the wire

`STPathSet`: its bytes (`STPathSet.add`) and the constructor that reads them (`readPathSet`). The reader keeps the three
identifiers of an element and whether a currency was there, and computes the type of the element anew; a reader of the
bytes sees a `RawElement`, whose identifiers are there or not. The two agree unless an account or an issuer is there and is
zero, and that is what decides whether the bytes are those that `add` writes.
-/

namespace ScfChain.Protocol

open Data

namespace STPathElement

def typeNone : BitVec 32 := 0x00
def typeAccount : BitVec 32 := 0x01
def typeCurrency : BitVec 32 := 0x10
def typeIssuer : BitVec 32 := 0x20
def typeBoundary : BitVec 32 := 0xFF
def typeAll : BitVec 32 := typeAccount ||| typeCurrency ||| typeIssuer

end STPathElement

open STPathElement

/-- An element of a path; the hash value that is kept with it is a function of the three identifiers. -/
@[ext]
structure STPathElement where
  mType : BitVec 32
  mAccountID : BitVec 160
  mCurrencyID : BitVec 160
  mIssuerID : BitVec 160
  isOffer : Bool
deriving DecidableEq, Repr

/-- Whether a type has the bit `type`. -/
def hasBit (iType type : BitVec 32) : Bool := iType &&& type ≠ 0

/-- The bit `type`, if it is set. -/
def typeIf (type : BitVec 32) (set : Bool) : BitVec 32 := if set then type else typeNone

namespace STPathElement

/-- The constructor from three identifiers, of which zero stands for none. -/
def ofIDs (account currency issuer : BitVec 160) (forceCurrency : Bool) : STPathElement where
  mType := typeIf typeAccount (account ≠ 0) ||| typeIf typeCurrency (forceCurrency || currency ≠ 0) |||
    typeIf typeIssuer (issuer ≠ 0)
  mAccountID := account
  mCurrencyID := currency
  mIssuerID := issuer
  isOffer := account = 0

/-- The constructor from optional identifiers. -/
def ofOptional (account currency issuer : Option (BitVec 160)) : STPathElement where
  mType := typeIf typeAccount account.isSome ||| typeIf typeCurrency currency.isSome ||| typeIf typeIssuer issuer.isSome
  mAccountID := account.getD 0
  mCurrencyID := currency.getD 0
  mIssuerID := issuer.getD 0
  isOffer := account.isNone

/-- The constructor from a type and three identifiers. -/
def ofType (uType : BitVec 32) (account currency issuer : BitVec 160) : STPathElement where
  mType := uType
  mAccountID := account
  mCurrencyID := currency
  mIssuerID := issuer
  isOffer := account = 0

def has (e : STPathElement) (type : BitVec 32) : Bool := hasBit e.mType type

end STPathElement

/-! ## Writing -/

/-- `add8` keeps the low byte. -/
def add8 (i : BitVec 32) : List UInt8 := [UInt8.ofBitVec (i.setWidth 8)]

def STPathElement.add (e : STPathElement) : List UInt8 :=
  add8 e.mType ++ (if e.has typeAccount then add160 e.mAccountID else []) ++
    (if e.has typeCurrency then add160 e.mCurrencyID else []) ++ (if e.has typeIssuer then add160 e.mIssuerID else [])

/-- Paths with a boundary between any two of them and the end after the last. -/
def addPaths {α : Type} (add : α → List UInt8) (value : List (List α)) : List UInt8 :=
  List.intercalate (add8 typeBoundary) (value.map fun path => path.flatMap add) ++ add8 typeNone

def STPathSet.add (value : List (List STPathElement)) : List UInt8 := addPaths STPathElement.add value

/-! ## Reading -/

/-- An identifier that is read if its bit is set, and is zero otherwise. -/
def getID (set : Bool) : Parser (BitVec 160) := if set then get160 else pure 0

/-- The identifiers of an element whose type has been read. -/
def readElement (iType : BitVec 32) : Parser STPathElement := do
  let account ← getID (hasBit iType typeAccount)
  let currency ← getID (hasBit iType typeCurrency)
  let issuer ← getID (hasBit iType typeIssuer)
  pure (ofIDs account currency issuer (hasBit iType typeCurrency))

/-- The loop of the constructor. Every round reads a byte, so that there are no more rounds than bytes; without a byte,
`get8` throws. -/
def readPaths : ℕ → List (List STPathElement) → List STPathElement → Parser (List (List STPathElement))
  | 0, _, _ => throw "invalid SerialIter get8"
  | rounds + 1, value, path => do
    let byte ← get8
    let iType : BitVec 32 := byte.toBitVec.setWidth 32
    if iType = typeNone ∨ iType = typeBoundary then
      if path = [] then throw "empty path"
      else if iType = typeNone then pure (value ++ [path])
      else readPaths rounds (value ++ [path]) []
    else if iType &&& ~~~typeAll ≠ 0 then throw "bad path element"
    else do
      let element ← readElement iType
      readPaths rounds value (path ++ [element])

def readPathSet : Parser (List (List STPathElement)) := fun bytes => readPaths bytes.length [] [] bytes

/-! ## What the bytes say -/

/-- An element as its bytes have it: each identifier is there or not, and not all are missing. -/
structure RawElement where
  account : Option (BitVec 160)
  currency : Option (BitVec 160)
  issuer : Option (BitVec 160)
  some_isSome : account.isSome ∨ currency.isSome ∨ issuer.isSome

def addOptional (id : Option (BitVec 160)) : List UInt8 := (id.map add160).getD []

namespace RawElement

def type (raw : RawElement) : BitVec 32 :=
  typeIf typeAccount raw.account.isSome ||| typeIf typeCurrency raw.currency.isSome ||| typeIf typeIssuer raw.issuer.isSome

def ids (raw : RawElement) : List UInt8 := addOptional raw.account ++ addOptional raw.currency ++ addOptional raw.issuer

def add (raw : RawElement) : List UInt8 := add8 raw.type ++ raw.ids

/-- The element that the reader makes of it. -/
def element (raw : RawElement) : STPathElement :=
  ofIDs (raw.account.getD 0) (raw.currency.getD 0) (raw.issuer.getD 0) raw.currency.isSome

/-- No account and no issuer is there and is zero. -/
def Proper (raw : RawElement) : Prop := raw.account ≠ some 0 ∧ raw.issuer ≠ some 0

end RawElement

variable {set : Bool} {bytes rest : List UInt8} {e : STPathElement} {α : Type} {value : List (List STPathElement)}

theorem getID_run {x : BitVec 160} :
    getID set bytes = .ok (x, rest) ↔ ∃ id : Option (BitVec 160), id.isSome = set ∧ x = id.getD 0 ∧
      bytes = addOptional id ++ rest := by
  unfold getID
  cases set with
  | true =>
    rw [if_pos rfl, get160_run]
    constructor
    · intro h
      exact ⟨some x, rfl, rfl, h⟩
    · rintro ⟨id, hid, rfl, h⟩
      obtain ⟨y, rfl⟩ := Option.isSome_iff_exists.mp hid
      exact h
  | false =>
    rw [if_neg Bool.false_ne_true]
    constructor
    · intro h
      obtain ⟨rfl, rfl⟩ := Prod.mk.inj (Except.ok.inj h)
      exact ⟨none, rfl, rfl, rfl⟩
    · rintro ⟨id, hid, rfl, rfl⟩
      obtain rfl : id = none := by simpa using hid
      rfl

theorem readElement_run {iType : BitVec 32} :
    readElement iType bytes = .ok (e, rest) ↔ ∃ account currency issuer : Option (BitVec 160),
      account.isSome = hasBit iType typeAccount ∧ currency.isSome = hasBit iType typeCurrency ∧
      issuer.isSome = hasBit iType typeIssuer ∧
      e = ofIDs (account.getD 0) (currency.getD 0) (issuer.getD 0) currency.isSome ∧
      bytes = addOptional account ++ addOptional currency ++ addOptional issuer ++ rest := by
  unfold readElement
  simp only [bind_run, getID_run]
  constructor
  · rintro ⟨_, _, ⟨account, ha, rfl, rfl⟩, _, _, ⟨currency, hc, rfl, rfl⟩, _, _, ⟨issuer, hi, rfl, rfl⟩, h⟩
    obtain ⟨rfl, rfl⟩ := Prod.mk.inj (Except.ok.inj h)
    refine ⟨account, currency, issuer, ha, hc, hi, by rw [hc], ?_⟩
    simp only [List.append_assoc]
  · rintro ⟨account, currency, issuer, ha, hc, hi, rfl, rfl⟩
    refine ⟨_, _, ⟨account, ha, rfl, by simp only [List.append_assoc]; rfl⟩, _, _, ⟨currency, hc, rfl, rfl⟩, _, _,
      ⟨issuer, hi, rfl, rfl⟩, ?_⟩
    rw [hc]
    rfl

/-! ## The bits of a type -/

theorem hasBit_type (a c i : Bool) :
    hasBit (typeIf typeAccount a ||| typeIf typeCurrency c ||| typeIf typeIssuer i) typeAccount = a ∧
    hasBit (typeIf typeAccount a ||| typeIf typeCurrency c ||| typeIf typeIssuer i) typeCurrency = c ∧
    hasBit (typeIf typeAccount a ||| typeIf typeCurrency c ||| typeIf typeIssuer i) typeIssuer = i := by
  revert a c i
  decide

theorem type_byte (a c i : Bool) (h : a ∨ c ∨ i) (type : BitVec 32)
    (ht : type = typeIf typeAccount a ||| typeIf typeCurrency c ||| typeIf typeIssuer i) :
    (UInt8.ofBitVec (type.setWidth 8)).toBitVec.setWidth 32 = type ∧ type ≠ typeNone ∧ type ≠ typeBoundary ∧
      type &&& ~~~typeAll = 0 := by
  subst ht
  revert a c i
  decide

theorem byte_type (byte : BitVec 8) (h : byte.setWidth 32 &&& ~~~typeAll = 0) (hne : byte.setWidth 32 ≠ typeNone) :
    byte.setWidth 32 = typeIf typeAccount (hasBit (byte.setWidth 32) typeAccount) |||
      typeIf typeCurrency (hasBit (byte.setWidth 32) typeCurrency) |||
      typeIf typeIssuer (hasBit (byte.setWidth 32) typeIssuer) ∧
    (hasBit (byte.setWidth 32) typeAccount ∨ hasBit (byte.setWidth 32) typeCurrency ∨
      hasBit (byte.setWidth 32) typeIssuer) := by
  revert byte
  decide +kernel

/-! ## What is accepted -/

variable (add : α → List UInt8)

theorem addPaths_end : addPaths add [[]] = [0] := rfl

theorem addPaths_boundary (path : List α) (paths : List (List α)) :
    addPaths add ([] :: path :: paths) = 0xFF :: addPaths add (path :: paths) := by
  simp [addPaths, List.intercalate, add8, typeBoundary]

theorem addPaths_element (e : α) (path : List α) (paths : List (List α)) :
    addPaths add ((e :: path) :: paths) = add e ++ addPaths add (path :: paths) := by
  cases paths with
  | nil => simp [addPaths, List.intercalate]
  | cons next paths => simp [addPaths, List.intercalate]

theorem addPaths_ne_nil (paths : List (List α)) : addPaths add paths ≠ [] := by
  simp [addPaths, add8]

theorem readElement_raw {byte : UInt8} :
    (byte.toBitVec.setWidth 32 ≠ typeNone ∧ byte.toBitVec.setWidth 32 ≠ typeBoundary ∧
      byte.toBitVec.setWidth 32 &&& ~~~typeAll = 0 ∧ readElement (byte.toBitVec.setWidth 32) bytes = .ok (e, rest)) ↔
    ∃ raw : RawElement, byte :: bytes = raw.add ++ rest ∧ e = raw.element := by
  constructor
  · rintro ⟨hnone, -, hall, hread⟩
    obtain ⟨htype, hsome⟩ := byte_type byte.toBitVec hall hnone
    obtain ⟨account, currency, issuer, ha, hc, hi, rfl, rfl⟩ := readElement_run.mp hread
    rw [← ha, ← hc, ← hi] at hsome
    refine ⟨⟨account, currency, issuer, hsome⟩, ?_, rfl⟩
    have hbyte : UInt8.ofBitVec ((byte.toBitVec.setWidth 32).setWidth 8) = byte := by
      rw [BitVec.setWidth_setWidth_of_le _ (by decide), BitVec.setWidth_eq]
    simp only [RawElement.add, RawElement.ids, RawElement.type, add8, ha, hc, hi]
    rw [← htype, hbyte]
    rfl
  · rintro ⟨raw, heq, rfl⟩
    obtain ⟨hbyte, hnone, hboundary, hall⟩ := type_byte _ _ _ raw.some_isSome raw.type rfl
    obtain ⟨ha, hc, hi⟩ := hasBit_type raw.account.isSome raw.currency.isSome raw.issuer.isSome
    obtain ⟨rfl, rfl⟩ := List.cons.inj heq
    rw [hbyte]
    refine ⟨hnone, hboundary, hall, readElement_run.mpr ⟨raw.account, raw.currency, raw.issuer, ha.symm, hc.symm,
      hi.symm, rfl, rfl⟩⟩

theorem readPaths_succ {rounds : ℕ} {result : List (List STPathElement)} {path : List STPathElement} {byte : UInt8} :
    readPaths (rounds + 1) value path (byte :: bytes) = .ok (result, rest) ↔
      (byte = 0 ∧ path ≠ [] ∧ result = value ++ [path] ∧ bytes = rest) ∨
      (byte = 0xFF ∧ path ≠ [] ∧ readPaths rounds (value ++ [path]) [] bytes = .ok (result, rest)) ∨
      ∃ (raw : RawElement) (tail : List UInt8), byte :: bytes = raw.add ++ tail ∧
        readPaths rounds value (path ++ [raw.element]) tail = .ok (result, rest) := by
  have hnone : byte.toBitVec.setWidth 32 = typeNone ↔ byte = 0 := by
    rw [← UInt8.toBitVec_inj]
    generalize byte.toBitVec = b
    revert b
    decide +kernel
  have hboundary : byte.toBitVec.setWidth 32 = typeBoundary ↔ byte = 0xFF := by
    rw [← UInt8.toBitVec_inj]
    generalize byte.toBitVec = b
    revert b
    decide +kernel
  have hget : readPaths (rounds + 1) value path (byte :: bytes) =
      (if byte.toBitVec.setWidth 32 = typeNone ∨ byte.toBitVec.setWidth 32 = typeBoundary then
        if path = [] then throw "empty path"
        else if byte.toBitVec.setWidth 32 = typeNone then pure (value ++ [path])
        else readPaths rounds (value ++ [path]) []
      else if byte.toBitVec.setWidth 32 &&& ~~~typeAll ≠ 0 then throw "bad path element"
      else do
        let element ← readElement (byte.toBitVec.setWidth 32)
        readPaths rounds value (path ++ [element]) :
      Parser (List (List STPathElement))) bytes := rfl
  rw [hget]
  constructor
  · intro h
    split_ifs at h with hend hpath hn hall
    · cases h
    · obtain ⟨rfl, rfl⟩ := Prod.mk.inj (Except.ok.inj h)
      exact .inl ⟨hnone.mp hn, hpath, rfl, rfl⟩
    · exact .inr (.inl ⟨hboundary.mp (hend.resolve_left hn), hpath, h⟩)
    · cases h
    · obtain ⟨e, tail, hread, h⟩ := bind_run.mp h
      obtain ⟨hn, hb⟩ := not_or.mp hend
      obtain ⟨raw, heq, rfl⟩ := readElement_raw.mp ⟨hn, hb, not_not.mp hall, hread⟩
      exact .inr (.inr ⟨raw, tail, heq, h⟩)
  · rintro (⟨rfl, hpath, rfl, rfl⟩ | ⟨rfl, hpath, h⟩ | ⟨raw, tail, heq, h⟩)
    · rw [if_pos (.inl (hnone.mpr rfl)), if_neg hpath, if_pos (hnone.mpr rfl)]
      rfl
    · rw [if_pos (.inr (hboundary.mpr rfl)), if_neg hpath, if_neg (mt hnone.mp (by decide))]
      exact h
    · obtain ⟨hn, hb, hall, hread⟩ := readElement_raw.mpr ⟨raw, heq, rfl⟩
      rw [if_neg (not_or.mpr ⟨hn, hb⟩), if_neg (not_not.mpr hall)]
      exact bind_run.mpr ⟨_, _, hread, h⟩

theorem readPaths_run {rounds : ℕ} {result : List (List STPathElement)} {path : List STPathElement}
    (hlen : bytes.length ≤ rounds) :
    readPaths rounds value path bytes = .ok (result, rest) ↔ ∃ (first : List RawElement) (more : List (List RawElement)),
      (path ≠ [] ∨ first ≠ []) ∧ (∀ p ∈ more, p ≠ []) ∧ bytes = addPaths RawElement.add (first :: more) ++ rest ∧
      result = value ++ (path ++ first.map RawElement.element) :: more.map (List.map RawElement.element) := by
  induction rounds generalizing value path bytes with
  | zero =>
    obtain rfl : bytes = [] := List.length_eq_zero_iff.mp (Nat.le_zero.mp hlen)
    constructor
    · intro h
      cases h
    · rintro ⟨first, more, -, -, h, -⟩
      simp [addPaths_ne_nil] at h
  | succ rounds ih =>
    cases bytes with
    | nil =>
      constructor
      · intro h
        cases h
      · rintro ⟨first, more, -, -, h, -⟩
        simp [addPaths_ne_nil] at h
    | cons byte bytes =>
      have hlen' : bytes.length ≤ rounds := Nat.le_of_succ_le_succ hlen
      have htail {raw : RawElement} {tail : List UInt8} (h : byte :: bytes = raw.add ++ tail) : tail.length ≤ rounds := by
        have hcount := congrArg List.length h
        simp only [RawElement.add, add8, List.length_append, List.length_cons, List.length_nil] at hcount
        omega
      rw [readPaths_succ]
      constructor
      · rintro (⟨rfl, hpath, rfl, rfl⟩ | ⟨rfl, hpath, h⟩ | ⟨raw, tail, heq, h⟩)
        · exact ⟨[], [], .inl hpath, by simp, by simp [addPaths_end], by simp⟩
        · obtain ⟨first, more, hfirst, hmore, rfl, rfl⟩ := (ih hlen').mp h
          refine ⟨[], first :: more, .inl hpath, ?_, by rw [addPaths_boundary]; rfl, by simp⟩
          intro p hp
          obtain rfl | hp := List.mem_cons.mp hp
          · exact hfirst.resolve_left (fun h => h rfl)
          · exact hmore p hp
        · obtain ⟨first, more, -, hmore, rfl, rfl⟩ := (ih (htail heq)).mp h
          refine ⟨raw :: first, more, .inr (List.cons_ne_nil _ _), hmore, ?_, by simp⟩
          rw [heq, addPaths_element, List.append_assoc]
      · rintro ⟨first, more, hne, hmore, heq, rfl⟩
        cases first with
        | cons raw first =>
          rw [addPaths_element, List.append_assoc] at heq
          refine .inr (.inr ⟨raw, _, heq, (ih (htail heq)).mpr ⟨first, more, .inl (by simp), hmore, rfl, by simp⟩⟩)
        | nil =>
          have hpath := hne.resolve_right (fun h => h rfl)
          cases more with
          | nil =>
            obtain ⟨rfl, rfl⟩ := List.cons.inj heq
            exact .inl ⟨rfl, hpath, by simp, rfl⟩
          | cons next more =>
            rw [addPaths_boundary] at heq
            obtain ⟨rfl, rfl⟩ := List.cons.inj heq
            refine .inr (.inl ⟨rfl, hpath, (ih hlen').mpr ⟨next, more, .inr (hmore next (by simp)), ?_, rfl, by simp⟩⟩)
            exact fun p hp => hmore p (by simp [hp])

/-- Raw path sets: there is a path, and every path has an element. -/
def Paths {α : Type} (paths : List (List α)) : Prop := paths ≠ [] ∧ ∀ path ∈ paths, path ≠ []

theorem readPathSet_run : readPathSet bytes = .ok (value, rest) ↔ ∃ raws : List (List RawElement), Paths raws ∧
      bytes = addPaths RawElement.add raws ++ rest ∧ value = raws.map (List.map RawElement.element) := by
  unfold readPathSet
  rw [readPaths_run le_rfl]
  constructor
  · rintro ⟨first, more, hfirst, hmore, rfl, rfl⟩
    refine ⟨first :: more, ⟨List.cons_ne_nil _ _, ?_⟩, rfl, rfl⟩
    intro path hpath
    obtain rfl | hpath := List.mem_cons.mp hpath
    · exact hfirst.resolve_left (fun h => h rfl)
    · exact hmore path hpath
  · rintro ⟨raws, ⟨hne, hraws⟩, rfl, rfl⟩
    obtain ⟨first, more, rfl⟩ := List.exists_cons_of_ne_nil hne
    exact ⟨first, more, .inr (hraws first (by simp)), fun p hp => hraws p (by simp [hp]), rfl, rfl⟩

/-! ## What is written back -/

/-- The type says which identifiers are not zero, except that it may also say that the currency is there. -/
structure STPathElement.Faithful (e : STPathElement) : Prop where
  known : e.mType &&& ~~~typeAll = 0
  account : e.has typeAccount ↔ e.mAccountID ≠ 0
  currency : e.mCurrencyID ≠ 0 → e.has typeCurrency
  issuer : e.has typeIssuer ↔ e.mIssuerID ≠ 0
  offer : e.isOffer ↔ e.mAccountID = 0

theorem faithful_ofIDs (account currency issuer : BitVec 160) (force : Bool) :
    (ofIDs account currency issuer force).Faithful := by
  obtain ⟨ha, hc, hi⟩ := hasBit_type (account ≠ 0) (force || currency ≠ 0) (issuer ≠ 0)
  have hknown : ∀ a c i : Bool, (typeIf typeAccount a ||| typeIf typeCurrency c ||| typeIf typeIssuer i) &&& ~~~typeAll = 0 :=
    by decide
  refine ⟨hknown _ _ _, ?_, ?_, ?_, ?_⟩
  · rw [has, ofIDs, ha]
    simp
  · intro hne
    rw [has, ofIDs, hc]
    simpa using .inr hne
  · rw [has, ofIDs, hi]
    simp
  · simp [ofIDs]

theorem type_of_known {type : BitVec 32} (h : type &&& ~~~typeAll = 0) (hne : type ≠ typeNone) :
    type = typeIf typeAccount (hasBit type typeAccount) ||| typeIf typeCurrency (hasBit type typeCurrency) |||
      typeIf typeIssuer (hasBit type typeIssuer) ∧
    (hasBit type typeAccount ∨ hasBit type typeCurrency ∨ hasBit type typeIssuer) := by
  have hmask : type = type &&& typeAll := by
    have hsplit : type = (type &&& typeAll) ||| (type &&& ~~~typeAll) := by
      ext i hi
      simp only [BitVec.getElem_or, BitVec.getElem_and, BitVec.getElem_not]
      cases type[i] <;> cases typeAll[i] <;> rfl
    rw [h] at hsplit
    exact hsplit.trans BitVec.or_zero
  have hlt : type.toNat < 2 ^ 8 := by
    have hle : type.toNat ≤ typeAll.toNat := by
      rw [hmask, BitVec.toNat_and]
      exact Nat.and_le_right
    exact hle.trans_lt (by decide)
  have hbyte : (type.setWidth 8).setWidth 32 = type := by
    apply BitVec.eq_of_toNat_eq
    rw [BitVec.toNat_setWidth, BitVec.toNat_setWidth, Nat.mod_eq_of_lt hlt, Nat.mod_eq_of_lt type.isLt]
  have hbits := byte_type (type.setWidth 8)
  rw [hbyte] at hbits
  exact hbits h hne

theorem isSome_eq_iff (id : Option (BitVec 160)) : id.isSome = decide (id.getD 0 ≠ 0) ↔ id ≠ some 0 := by
  cases id with
  | none => simp
  | some id => simp

theorem RawElement.mType_element (raw : RawElement) :
    raw.element.mType = typeIf typeAccount (raw.account.getD 0 ≠ 0) ||| typeIf typeCurrency raw.currency.isSome |||
      typeIf typeIssuer (raw.issuer.getD 0 ≠ 0) := by
  have hcurrency : (raw.currency.isSome || raw.currency.getD 0 ≠ 0) = raw.currency.isSome := by
    cases raw.currency with
    | none => rfl
    | some id => rfl
  unfold RawElement.element ofIDs
  rw [hcurrency]

theorem RawElement.add8_type_iff (raw : RawElement) : add8 raw.element.mType = add8 raw.type ↔ raw.Proper := by
  have hbits : ∀ a c i a' i' : Bool,
      add8 (typeIf typeAccount a' ||| typeIf typeCurrency c ||| typeIf typeIssuer i') =
        add8 (typeIf typeAccount a ||| typeIf typeCurrency c ||| typeIf typeIssuer i) ↔ a = a' ∧ i = i' := by
    decide
  rw [raw.mType_element, RawElement.type, hbits, isSome_eq_iff, isSome_eq_iff]
  rfl

theorem addOptional_eq (id : Option (BitVec 160)) (x : BitVec 160) (h : x = id.getD 0) :
    (if id.isSome then add160 x else []) = addOptional id := by
  subst h
  cases id with
  | none => rfl
  | some id => rfl

theorem RawElement.add_element {raw : RawElement} (h : raw.Proper) : raw.element.add = raw.add := by
  have htype : raw.element.mType = raw.type := by
    rw [raw.mType_element, RawElement.type, (isSome_eq_iff _).mpr h.1, (isSome_eq_iff _).mpr h.2]
  obtain ⟨ha, hc, hi⟩ := hasBit_type raw.account.isSome raw.currency.isSome raw.issuer.isSome
  unfold STPathElement.add STPathElement.has
  rw [htype]
  unfold RawElement.type
  rw [ha, hc, hi, addOptional_eq raw.account raw.element.mAccountID rfl,
    addOptional_eq raw.currency raw.element.mCurrencyID rfl, addOptional_eq raw.issuer raw.element.mIssuerID rfl]
  simp only [RawElement.add, RawElement.type, RawElement.ids, List.append_assoc]

/-- An identifier that is there if `set`. -/
def present (set : Bool) (id : BitVec 160) : Option (BitVec 160) := if set then some id else none

theorem isSome_present (set : Bool) (id : BitVec 160) : (present set id).isSome = set := by
  cases set with
  | true => rfl
  | false => rfl

theorem getD_present {id : BitVec 160} (h : id ≠ 0 → set) : (present set id).getD 0 = id := by
  cases set with
  | true => rfl
  | false => exact (not_not.mp fun hne => Bool.false_ne_true (h hne)).symm

theorem present_ne_zero {id : BitVec 160} (h : set → id ≠ 0) : present set id ≠ some 0 := by
  intro heq
  unfold present at heq
  split_ifs at heq with hset
  exact h hset (Option.some.inj heq)

theorem STPathElement.Faithful.exists_raw (h : e.Faithful) (hne : e.mType ≠ 0) :
    ∃ raw : RawElement, raw.Proper ∧ raw.element = e := by
  obtain ⟨htype, hsome⟩ := type_of_known h.known hne
  let raw : RawElement := ⟨present (e.has typeAccount) e.mAccountID, present (e.has typeCurrency) e.mCurrencyID,
    present (e.has typeIssuer) e.mIssuerID, by
      rw [isSome_present, isSome_present, isSome_present]
      exact hsome⟩
  have ha : raw.account.getD 0 = e.mAccountID := getD_present h.account.mpr
  have hc : raw.currency.getD 0 = e.mCurrencyID := getD_present h.currency
  have hi : raw.issuer.getD 0 = e.mIssuerID := getD_present h.issuer.mpr
  have hproper : raw.Proper := ⟨present_ne_zero h.account.mp, present_ne_zero h.issuer.mp⟩
  refine ⟨raw, hproper, STPathElement.ext ?_ ha hc hi ?_⟩
  · rw [raw.mType_element, ← (isSome_eq_iff _).mpr hproper.1, ← (isSome_eq_iff _).mpr hproper.2]
    change typeIf typeAccount (present _ _).isSome ||| typeIf typeCurrency (present _ _).isSome |||
      typeIf typeIssuer (present _ _).isSome = _
    rw [isSome_present, isSome_present, isSome_present]
    exact htype.symm
  · change decide (raw.account.getD 0 = 0) = e.isOffer
    rw [ha, Bool.eq_iff_iff, h.offer, decide_eq_true_iff]

theorem addPaths_map {β : Type} (add : β → List UInt8) (f : α → β) (paths : List (List α)) :
    addPaths add (paths.map (List.map f)) = addPaths (add ∘ f) paths := by
  simp [addPaths, List.flatMap_map, Function.comp_def]

theorem addPaths_congr {add add' : α → List UInt8} {paths : List (List α)}
    (h : ∀ path ∈ paths, ∀ e ∈ path, add e = add' e) : addPaths add paths = addPaths add' paths := by
  unfold addPaths
  congr 2
  refine List.map_congr_left fun path hpath => List.flatMap_congr fun e he => h path hpath e he

theorem proper_of_add_eq_first (first : List RawElement) (more : List (List RawElement))
    (h : addPaths (STPathElement.add ∘ RawElement.element) (first :: more) = addPaths RawElement.add (first :: more)) :
    (∀ raw ∈ first, raw.Proper) ∧
      addPaths (STPathElement.add ∘ RawElement.element) ([] :: more) = addPaths RawElement.add ([] :: more) := by
  induction first with
  | nil => exact ⟨by simp, h⟩
  | cons raw first ih =>
    rw [addPaths_element, addPaths_element] at h
    -- The bytes of the types are the first.
    have hproper : raw.Proper := by
      apply raw.add8_type_iff.mp
      exact congrArg (List.take 1) h
    rw [Function.comp_apply, RawElement.add_element hproper] at h
    obtain ⟨hfirst, hmore⟩ := ih (List.append_cancel_left h)
    refine ⟨?_, hmore⟩
    intro r hr
    obtain rfl | hr := List.mem_cons.mp hr
    · exact hproper
    · exact hfirst r hr

theorem proper_of_add_eq (first : List RawElement) (more : List (List RawElement))
    (h : addPaths (STPathElement.add ∘ RawElement.element) (first :: more) = addPaths RawElement.add (first :: more)) :
    ∀ path ∈ first :: more, ∀ raw ∈ path, raw.Proper := by
  induction more generalizing first with
  | nil => simpa using (proper_of_add_eq_first first [] h).1
  | cons next more ih =>
    obtain ⟨hfirst, h⟩ := proper_of_add_eq_first first (next :: more) h
    rw [addPaths_boundary, addPaths_boundary] at h
    intro path hpath
    obtain rfl | hpath := List.mem_cons.mp hpath
    · exact hfirst
    · exact ih next (List.cons.inj h).2 path hpath

theorem add_elements_iff {raws : List (List RawElement)} (h : Paths raws) :
    STPathSet.add (raws.map (List.map RawElement.element)) = addPaths RawElement.add raws ↔
      ∀ path ∈ raws, ∀ raw ∈ path, raw.Proper := by
  unfold STPathSet.add
  rw [addPaths_map]
  constructor
  · intro heq
    obtain ⟨first, more, rfl⟩ := List.exists_cons_of_ne_nil h.1
    exact proper_of_add_eq first more heq
  · intro hproper
    exact addPaths_congr fun path hpath raw hraw => RawElement.add_element (hproper path hpath raw hraw)

theorem read_add_iff (hvalue : Paths value) (htypes : ∀ path ∈ value, ∀ e ∈ path, e.mType ≠ 0) (rest : List UInt8) :
    readPathSet (STPathSet.add value ++ rest) = .ok (value, rest) ↔ ∀ path ∈ value, ∀ e ∈ path, e.Faithful := by
  rw [readPathSet_run]
  constructor
  · rintro ⟨raws, -, -, rfl⟩ path hpath e he
    obtain ⟨raw, -, rfl⟩ := List.mem_map.mp hpath
    obtain ⟨r, -, rfl⟩ := List.mem_map.mp he
    exact faithful_ofIDs _ _ _ _
  · intro hfaithful
    have hraw (e : STPathElement) : ∃ raw : RawElement, e.Faithful → e.mType ≠ 0 → raw.Proper ∧ raw.element = e := by
      by_cases he : e.Faithful ∧ e.mType ≠ 0
      · obtain ⟨raw, hraw⟩ := he.1.exists_raw he.2
        exact ⟨raw, fun _ _ => hraw⟩
      · exact ⟨⟨some 0, none, none, .inl rfl⟩, fun hf hne => absurd ⟨hf, hne⟩ he⟩
    choose f hf using hraw
    have hproper : ∀ path ∈ value, ∀ e ∈ path, (f e).Proper ∧ (f e).element = e :=
      fun path hpath e he => hf e (hfaithful path hpath e he) (htypes path hpath e he)
    have hback : (value.map (List.map f)).map (List.map RawElement.element) = value := by
      have hpath (path : List STPathElement) (h : path ∈ value) : (path.map f).map RawElement.element = path := by
        rw [List.map_map]
        exact (List.map_congr_left fun e he => (hproper path h e he).2).trans (List.map_id path)
      rw [List.map_map]
      exact (List.map_congr_left hpath).trans (List.map_id value)
    have hraws : Paths (value.map (List.map f)) := by
      refine ⟨by simpa using hvalue.1, ?_⟩
      intro path hpath
      obtain ⟨p, hp, rfl⟩ := List.mem_map.mp hpath
      simpa using hvalue.2 p hp
    refine ⟨value.map (List.map f), hraws, ?_, hback.symm⟩
    rw [← (add_elements_iff hraws).mpr, hback]
    intro path hpath raw hr
    obtain ⟨p, hp, rfl⟩ := List.mem_map.mp hpath
    obtain ⟨e, he, rfl⟩ := List.mem_map.mp hr
    exact (hproper p hp e he).1

/-- Two halves of one bijection, and where each fails. What is written of a path set is read back, with nothing after it
touched, if and only if its elements are faithful. The bytes that are accepted are those of raw path sets, and they are what
is written of the path set that is made of them if and only if no account and no issuer in them is zero. -/
theorem pathSet_wire_iff (rest : List UInt8) :
    (∀ value, Paths value → (∀ path ∈ value, ∀ e ∈ path, e.mType ≠ 0) →
      (readPathSet (STPathSet.add value ++ rest) = .ok (value, rest) ↔ ∀ path ∈ value, ∀ e ∈ path, e.Faithful)) ∧
    (∀ bytes value, readPathSet bytes = .ok (value, rest) ↔ ∃ raws : List (List RawElement), Paths raws ∧
      bytes = addPaths RawElement.add raws ++ rest ∧ value = raws.map (List.map RawElement.element)) ∧
    ∀ raws : List (List RawElement), Paths raws →
      (addPaths RawElement.add raws ++ rest = STPathSet.add (raws.map (List.map RawElement.element)) ++ rest ↔
        ∀ path ∈ raws, ∀ raw ∈ path, raw.Proper) := by
  refine ⟨fun value hvalue htypes => read_add_iff hvalue htypes rest, fun bytes value => readPathSet_run, ?_⟩
  intro raws hraws
  rw [← add_elements_iff hraws, List.append_left_inj]
  exact eq_comm

/-- A path through one account, and the same bytes again. -/
theorem pathSet_wire_iff_account :
    readPathSet (STPathSet.add [[ofIDs 1 0 0 false]] ++ []) = .ok ([[ofIDs 1 0 0 false]], []) := by
  refine ((pathSet_wire_iff []).1 _ ⟨by simp, by simp⟩ (by decide)).mpr ?_
  simp only [List.mem_singleton, forall_eq]
  exact faithful_ofIDs 1 0 0 false

/-- An account that is there and is zero: the bytes are accepted and are not those of the path set that they give, which are
not accepted; and a path through the account zero is not read back. -/
theorem pathSet_zero_account :
    readPathSet (1 :: List.replicate 20 0 ++ [0]) = .ok ([[ofIDs 0 0 0 false]], []) ∧
    STPathSet.add [[ofIDs 0 0 0 false]] = [0, 0] ∧ readPathSet [0, 0] = .error "empty path" ∧
    (ofOptional (some 0) none none).mType ≠ 0 ∧
    readPathSet (STPathSet.add [[ofOptional (some 0) none none]]) = .ok ([[ofIDs 0 0 0 false]], []) ∧
    ofIDs 0 0 0 false ≠ ofOptional (some 0) none none := by
  refine ⟨rfl, rfl, rfl, by decide, rfl, by decide⟩

end ScfChain.Protocol
