import Blkit.Data.Fallible
import Blkit.Value.Equal

/-!
# Inputs on the wire

An input is a map of host values.  `InputContract.Validate` converts it and checks it when it
is submitted, but it is serialised as it was given, and the receiver converts what it has read.

## What is taken from the serialiser

A struct is written as the fields it exports, and read back as a map; decimals and the values
of the language export none.  A duration is written as its integer, a nil slice or map as null,
and a time as text with a tag, which is read back as a time or, if it is the zero time, as nil.
Everything else is read back as it was.
-/

namespace Blkit.Wire

open Fallible BlValue

/-- A value of a host program, as `wrap` tells them apart.  A map is its keys and its values in
the order an iteration gives them. -/
inductive HostValue where
  | nil
  | bool (b : Bool)
  | string (s : String)
  | int (n : ℤ)
  | float (bits : UInt64)
  | decimal (d : ℚ)
  | time (t : GoTime)
  | duration (ns : ℤ)
  | bl (v : BlValue)
  | list (items : List HostValue)
  | map (keys : List String) (values : List HostValue)
  | nilList
  | nilMap
  | unsupported (type : String)

namespace HostValue

mutual

/-- No map has a key twice, nor a key without a value. -/
def Proper : HostValue → Prop
  | .list xs => ProperItems xs
  | .map ks xs => ks.Nodup ∧ ks.length = xs.length ∧ ProperItems xs
  | _ => True
termination_by structural x => x

def ProperItems : List HostValue → Prop
  | [] => True
  | x :: xs => Proper x ∧ ProperItems xs
termination_by structural x => x

end

section

-- `Number` on the bits of a float, and what a tagged time is read back as, if not as nil.
variable (number : UInt64 → Result ℚ) (readBack : GoTime → Option GoTime)

mutual

def wrap : HostValue → Result BlValue
  | .nil => .ok .null
  | .bl v => .ok v
  | .bool b => .ok (.boolean b)
  | .string s => .ok (.string s)
  | .int n => .ok (.number n)
  | .float bits => .number <$> number bits
  | .decimal d => .ok (.number d)
  | .time t => .ok (.dateTime t false)
  | .duration ns => .ok (.daysTimeDuration (ns / 1000000000))
  | .list xs => .list <$> wrapItems xs
  | .map ks xs => (fun vs => .dictionary (ks.zip vs)) <$> wrapItems xs
  | .nilList => .ok (.list [])
  | .nilMap => .ok (.dictionary [])
  | .unsupported type => .error (.typeError "wrap" ("unsupported host input type " ++ type))
termination_by structural x => x

def wrapItems : List HostValue → Result (List BlValue)
  | [] => .ok []
  | x :: xs => do
    let v ← wrap x
    let vs ← wrapItems xs
    return v :: vs
termination_by structural x => x

end

mutual

/-- What is read back of a value.  Decimals and the values of the language export no field, a
duration is its integer, and a nil list or map is nil. -/
def wire : HostValue → HostValue
  | .decimal _ => .map [] []
  | .bl _ => .map [] []
  | .duration ns => .int ns
  | .time t => (readBack t).elim .nil .time
  | .list xs => .list (wireItems xs)
  | .map ks xs => .map ks (wireItems xs)
  | .nilList => .nil
  | .nilMap => .nil
  | x => x
termination_by structural x => x

def wireItems : List HostValue → List HostValue
  | [] => []
  | x :: xs => wire x :: wireItems xs
termination_by structural x => x

end

mutual

/-- Nothing in the value changes its type on the wire, and no time its instant. -/
def Plain : HostValue → Prop
  | .decimal _ => False
  | .bl v => v = .dictionary []
  | .duration _ => False
  | .time t => ∃ u, readBack t = some u ∧ t.unixNano = u.unixNano
  | .list xs => PlainItems xs
  | .map _ xs => PlainItems xs
  | .nilList => False
  | .nilMap => False
  | _ => True
termination_by structural x => x

def PlainItems : List HostValue → Prop
  | [] => True
  | x :: xs => Plain x ∧ PlainItems xs
termination_by structural x => x

end

end

/-! ## What the receiver sees -/

lemma agree_empty_iff (v : BlValue) :
    agree v (.dictionary []) ↔ v = .dictionary [] := by
  cases v with
  | dictionary d => cases d <;> simp [agree, agreeEntries]
  | _ => simp [agree]

/-- Dictionaries with the same keys agree when their values do, position by position. -/
lemma agreeEntries_zip {o : Row} :
    ∀ {ks : List String} {vs ws : List BlValue}, ks.length = vs.length → vs.length = ws.length →
      (∀ p ∈ ks.zip ws, o.lookup p.1 = some p.2) → agreeEntries (ks.zip vs) o = agreeItems vs ws
  | [], [], _, _, _, _ => rfl
  | k :: ks, v :: vs, w :: ws, hk, hv, ho => by
    have hhead : o.lookup k = some w := ho (k, w) List.mem_cons_self
    have htail := agreeEntries_zip (Nat.succ.inj hk) (Nat.succ.inj hv)
      fun p hp => ho p (List.mem_cons_of_mem _ hp)
    rw [List.zip_cons_cons, agreeEntries, agreeItems, agreeEntry, hhead, htail]
    rfl

lemma agree_zip {ks : List String} {vs ws : List BlValue} (hks : ks.Nodup)
    (hk : ks.length = vs.length) (hv : vs.length = ws.length) :
    agree (.dictionary (ks.zip vs)) (.dictionary (ks.zip ws)) = agreeItems vs ws := by
  have hkeys : (ks.zip ws).map Prod.fst = ks := List.map_fst_zip (hk.trans hv).le
  have hlook := lookup_self (d := ks.zip ws) (hkeys.symm ▸ hks)
  simp [agree, hv, agreeEntries_zip hk hv hlook]

variable {number : UInt64 → Result ℚ} {readBack : GoTime → Option GoTime}

mutual

/-- What is read back of a convertible value is convertible, and gives the same value exactly
when the value is plain. -/
lemma wrap_wire : (x : HostValue) → x.Proper → {v : BlValue} → wrap number x = .ok v →
    ∃ w, wrap number (wire readBack x) = .ok w ∧ (agree v w ↔ x.Plain readBack)
  | .nil, _, _, h | .bool _, _, _, h | .string _, _, _, h | .int _, _, _, h => by
    cases h
    exact ⟨_, rfl, by simp [agree, Plain]⟩
  | .float bits, _, v, h => by
    refine ⟨v, h, ?_⟩
    obtain ⟨d, -, rfl⟩ := map_eq_ok.mp h
    simp [agree, Plain]
  | .decimal _, _, _, h | .duration _, _, _, h | .nilList, _, _, h | .nilMap, _, _, h => by
    cases h
    exact ⟨_, rfl, by simp [agree, Plain]⟩
  | .time t, _, _, h => by
    cases h
    rw [wire]
    cases hu : readBack t with
    | none => exact ⟨_, rfl, by simp [agree, Plain, hu]⟩
    | some u => exact ⟨_, rfl, by simp [agree, equalDateTime, Plain, hu]⟩
  | .bl v, _, _, h => by
    cases h
    exact ⟨_, rfl, agree_empty_iff v⟩
  | .list xs, hx, _, h => by
    obtain ⟨vs, hvs, rfl⟩ := map_eq_ok.mp h
    obtain ⟨ws, hws, -, hlen, hiff⟩ := wrapItems_wireItems xs hx hvs
    refine ⟨.list ws, map_eq_ok.mpr ⟨ws, hws, rfl⟩, ?_⟩
    simpa [agree, hlen, Plain] using hiff
  | .map ks xs, ⟨hks, hkx, hx⟩, _, h => by
    obtain ⟨vs, hvs, rfl⟩ := map_eq_ok.mp h
    obtain ⟨ws, hws, hxv, hlen, hiff⟩ := wrapItems_wireItems xs hx hvs
    refine ⟨.dictionary (ks.zip ws), map_eq_ok.mpr ⟨ws, hws, rfl⟩, ?_⟩
    rw [agree_zip hks (hkx.trans hxv) hlen]
    exact hiff

lemma wrapItems_wireItems : (xs : List HostValue) → ProperItems xs → {vs : List BlValue} →
    wrapItems number xs = .ok vs →
    ∃ ws, wrapItems number (wireItems readBack xs) = .ok ws ∧ xs.length = vs.length ∧
      vs.length = ws.length ∧ (agreeItems vs ws ↔ PlainItems readBack xs)
  | [], _, _, h => by
    cases h
    exact ⟨[], rfl, rfl, rfl, by simp [agreeItems, PlainItems]⟩
  | x :: xs, ⟨hx, hxs⟩, _, h => by
    obtain ⟨v, hv, h⟩ := bind_eq_ok.mp h
    obtain ⟨vs, hvs, h⟩ := bind_eq_ok.mp h
    cases h
    obtain ⟨w, hw, hiff⟩ := wrap_wire x hx hv
    obtain ⟨ws, hws, hxv, hlen, hiffs⟩ := wrapItems_wireItems xs hxs hvs
    refine ⟨w :: ws, ?_, congrArg (· + 1) hxv, congrArg (· + 1) hlen, ?_⟩
    · simp [wireItems, wrapItems, hw, hws]
    · rw [agreeItems, Bool.and_eq_true, hiff, hiffs, PlainItems]

end

end HostValue

/-! ## Contracts -/

/-- `Field`, with the nested schema of a dictionary or table and the element types of a list. -/
inductive Field where
  | mk (name : String) (type : BlType) (optional : Bool) (fields : List Field)
      (element : List BlType)

abbrev BlSchema := List Field

def Field.name : Field → String
  | .mk name _ _ _ _ => name

structure SchemaError where
  path : String
  err : String

def joinPath (parent child : String) : String :=
  if parent = "" then child else parent ++ "." ++ child

/-- The path of the element at a zero-based position. -/
def elementPath (path : String) (i : Nat) : String :=
  path ++ "[" ++ toString (i + 1) ++ "]"

def expected (want : BlType) (v : BlValue) (path : String) : Except SchemaError α :=
  .error ⟨path, "expected " ++ typeName want ++ ", got " ++ typeName v.blType⟩

/-- The loop of a closed validation over the keys of the dictionary. -/
def undeclared (s : BlSchema) (d : Row) (path : String) : Except SchemaError Unit :=
  match d.find? fun p => !(s.map Field.name).contains p.1 with
  | some p => .error ⟨joinPath path p.1, "undeclared key"⟩
  | none => .ok ()

/-- `validate`, given its loop over the declared fields. -/
def validateRow (s : BlSchema) (fields : Row → Except SchemaError Unit) (v : BlValue)
    (path : String) (closed : Bool) : Except SchemaError Unit :=
  match v with
  | .dictionary d => do
    fields d
    if closed then undeclared s d path
  | v => expected .dictionary v path

mutual

def validateField : Field → BlValue → String → Bool → Except SchemaError Unit
  | .mk _ type _ fields element, v, path, closed =>
    match type with
    | .any => if v.isNull then .error ⟨path, "required field is null"⟩ else .ok ()
    | .list =>
      match v with
      | .list items => items.zipIdx.forM fun (e, i) =>
          if element.contains e.blType then .ok ()
          else .error ⟨elementPath path i, "element type " ++ typeName e.blType ++ " not allowed"⟩
      | v => expected .list v path
    | .dictionary => validateRow fields (validateFields fields path closed) v path closed
    | .table =>
      match v with
      | .table _ rows => rows.zipIdx.forM fun (row, i) =>
          validateRow fields (validateFields fields (elementPath path i) closed) (.dictionary row)
            (elementPath path i) closed
      | v => expected .table v path
    | type => if v.blType = type then .ok () else expected type v path
termination_by structural f => f

/-- The loop of `validate` over the declared fields. -/
def validateFields : List Field → String → Bool → Row → Except SchemaError Unit
  | [], _, _, _ => .ok ()
  | .mk name type optional fields element :: s, path, closed, d => do
    let v := (d.lookup name).getD .null
    if v.isNull then
      if optional then .ok () else .error ⟨joinPath path name, "required field missing"⟩
    else validateField (.mk name type optional fields element) v (joinPath path name) closed
    validateFields s path closed d
termination_by structural s => s

end

def validate (s : BlSchema) (v : BlValue) (path : String) (closed : Bool) :
    Except SchemaError Unit :=
  validateRow s (validateFields s path closed) v path closed

structure DataContractValidationError where
  path : String
  err : GoError

/-- An input map; no map in it has a key twice. -/
structure Input where
  keys : List String
  values : List HostValue
  proper : (HostValue.map keys values).Proper

def Input.host (input : Input) : HostValue := .map input.keys input.values

/-- `InputContract.Validate`. -/
def validateInput (number : UInt64 → Result ℚ) (s : BlSchema) (input : Input) :
    Except DataContractValidationError Unit :=
  match input.host.wrap number with
  | .error e => .error ⟨"", e⟩
  | .ok v => (validate s v "" true).mapError fun e => ⟨e.path, .text e.err⟩

variable {number : UInt64 → Result ℚ} {readBack : GoTime → Option GoTime} {s : BlSchema}
  {input : Input}

lemma exists_wrap_of_validateInput (h : validateInput number s input = .ok ()) :
    ∃ v, input.host.wrap number = .ok v := by
  rw [validateInput] at h
  split at h
  · cases h
  · exact ⟨_, by assumption⟩

/-- An accepted input converts to the same value on both sides of the wire exactly if it is
plain. -/
theorem input_survives_iff (h : validateInput number s input = .ok ()) :
    (∃ v w, input.host.wrap number = .ok v ∧
      (input.host.wire readBack).wrap number = .ok w ∧ agree v w) ↔
      input.host.Plain readBack := by
  obtain ⟨v, hv⟩ := exists_wrap_of_validateInput h
  obtain ⟨w, hw, hiff⟩ := @HostValue.wrap_wire number readBack _ input.proper v hv
  constructor
  · rintro ⟨v', w', hv', hw', ha⟩
    cases hv.symm.trans hv'
    cases hw.symm.trans hw'
    exact hiff.mp ha
  · intro hp
    exact ⟨v, w, hv, hw, hiff.mpr hp⟩

/-- A map with one list in it. -/
def order : Input := ⟨["lines"], [.list [.string "a", .int 2]], by
  simp [HostValue.Proper, HostValue.ProperItems]⟩

/-- It is accepted, and arrives as it was. -/
theorem order_survives :
    order.host.Plain some ∧ ∃ v w, order.host.wrap (fun _ => .ok 0) = .ok v ∧
      (order.host.wire some).wrap (fun _ => .ok 0) = .ok w ∧ agree v w := by
  have haccepted : validateInput (fun _ => .ok 0)
      [.mk "lines" .list false [] [.string, .number]] order = .ok () := rfl
  have hplain : order.host.Plain some := by
    simp [order, Input.host, HostValue.Plain, HostValue.PlainItems]
  exact ⟨hplain, (input_survives_iff haccepted).mpr hplain⟩

/-- A map with a number of the language in it. -/
def amount : Input := ⟨["n"], [.bl (.number 1)], by
  simp [HostValue.Proper, HostValue.ProperItems]⟩

/-- The number is accepted for a number, and read back as an empty dictionary. -/
theorem amount_lost :
    validateInput (fun _ => .ok 0) [.mk "n" .number false [] []] amount = .ok () ∧
      amount.host.wrap (fun _ => .ok 0) = .ok (.dictionary [("n", .number 1)]) ∧
      (amount.host.wire some).wrap (fun _ => .ok 0) = .ok (.dictionary [("n", .dictionary [])]) ∧
      agree (.dictionary [("n", .number 1)]) (.dictionary [("n", .dictionary [])]) = false :=
  ⟨rfl, rfl, rfl, rfl⟩

end Blkit.Wire
