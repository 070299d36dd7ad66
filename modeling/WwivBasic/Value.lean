import WwivBasic.Foundations.RunLogic
import WwivBasic.Syntax

/-!
# Values

`src/value.h` and `src/value.cpp`: a `Value` is a `std::variant<bool, int, std::string>` with a
separate `type` field, which the accessors and the operators switch on before they read the
variant. The constructor from `std::any` leaves `type` uninitialised when the `any` is empty;
the tag such a field holds is an argument here.

## Main definitions

* `Value`, `Value.WellTagged`: the two fields, and their agreement
* `Value.ofAny`: the constructor `Value(const std::any&)`
* `Value.toBool`, `Value.toInt`, `Value.toString`, `Value.toAny`: the accessors
* `Value.add` to `Value.land`, `Value.lt`, `Value.gt`, `Value.beq`: the operators
* `Value.converted`, `Value.convertedWith` to `Value.convertedByLand`: the texts that are converted
  to numbers on the way

## Main results

* `Value.WellTagged.toBool` to `Value.WellTagged.toAny`: the accessors of a well-tagged value
  reach no wrong alternative of the variant
* `Value.WellTagged.add` to `Value.WellTagged.compareWith`: nor do the operators, whose results
  are well tagged
-/

namespace WwivBasic

/-- Why a run of the interpreter stops. -/
inductive Fault
  /-- `std::get` of an alternative the variant does not hold. -/
  | badVariantAccess
  /-- `std::any_cast` to a type the `any` does not hold. -/
  | badAnyCast
  /-- The run of a native function stops. -/
  | native (cause : Fault)
  /-- `back()` of an empty deque: undefined behaviour. -/
  | emptyBack
  /-- Overflow of `int`: undefined behaviour. -/
  | overflow
  /-- Division by zero: undefined behaviour. -/
  | divideByZero
  /-- A member of an absent child: undefined behaviour. -/
  | nullDereference
  /-- The run is longer than the fuel it was given. -/
  | outOfFuel
  deriving DecidableEq

/-- The `std::any` a visitor method returns. -/
inductive AnyVal
  | empty
  | bool (b : Bool)
  | int (i : Int32)
  | string (s : Str)
  deriving DecidableEq

/-- `std::variant<bool, int, std::string>`. -/
inductive Variant
  | bool (b : Bool)
  | int (i : Int32)
  | string (s : Str)
  deriving DecidableEq

/-- `Value::Type`. A field that was never written may hold none of the three enumerators. -/
inductive ValueType
  | boolean | integer | string | invalid
  deriving DecidableEq

/-- `Value`. The `debug` text is written and never read. -/
structure Value where
  value_ : Variant
  type : ValueType
  deriving DecidableEq

namespace Value

/-- `Value(bool)`. -/
def ofBool (b : Bool) : Value := ⟨.bool b, .boolean⟩

/-- `Value(int)`. -/
def ofInt (i : Int32) : Value := ⟨.int i, .integer⟩

/-- `Value(const std::string&)`. -/
def ofString (s : Str) : Value := ⟨.string s, .string⟩

/-- `Value()`. -/
def default : Value := ofString []

/-- `Value(const std::any&)`, where `tag` is what an unwritten `type` field holds. The variant
of a value made from an empty `any` holds its first alternative. -/
def ofAny (tag : ValueType) : AnyVal → Value
  | .empty => ⟨.bool false, tag⟩
  | .bool b => ofBool b
  | .int i => ofInt i
  | .string s => ofString s

/-- The `type` field names the alternative the variant holds. -/
def WellTagged (v : Value) : Prop :=
  match v.value_, v.type with
  | .bool _, .boolean | .int _, .integer | .string _, .string => True
  | _, _ => False

instance : DecidablePred WellTagged := fun ⟨x, t⟩ => by
  unfold WellTagged
  cases x <;> cases t <;> infer_instance

/-! ## `std::get` -/

/-- `std::get<bool>(value_)`. -/
def getBool (v : Value) : Except Fault Bool :=
  match v.value_ with
  | .bool b => .ok b
  | _ => .error .badVariantAccess

/-- `std::get<int>(value_)`. -/
def getInt (v : Value) : Except Fault Int32 :=
  match v.value_ with
  | .int i => .ok i
  | _ => .error .badVariantAccess

/-- `std::get<std::string>(value_)`. -/
def getString (v : Value) : Except Fault Str :=
  match v.value_ with
  | .string s => .ok s
  | _ => .error .badVariantAccess

/-! ## The accessors -/

/-- The text `TRUE`. -/
def trueText : Str := ['T', 'R', 'U', 'E']

/-- The text `FALSE`. -/
def falseText : Str := ['F', 'A', 'L', 'S', 'E']

def toBool (v : Value) : Except Fault Bool :=
  match v.type with
  | .boolean => v.getBool
  | .integer => v.getInt.map fun i => i ≠ 0
  | .string => v.getString.map fun s => s = trueText
  | .invalid => .ok false

/-- `std::stoi`, with `none` for the two exceptions it throws. As libstdc++ has it, a number that is
out of the range of `long` leaves `ERANGE` in `errno`, and any other text leaves `errno` as it
was. -/
def stoi (s : Str) : Option Int32 :=
  let result := strtol s
  if result.converted && !result.erange && intMin ≤ result.value && result.value ≤ intMax then
    some (.ofInt result.value)
  else none

def toInt (v : Value) : Except Fault Int32 :=
  match v.type with
  | .boolean => v.getBool.map fun b => if b then 1 else 0
  | .integer => v.getInt
  | .string => v.getString.map fun s => (stoi s).getD 0
  | .invalid => .ok 0

/-- The text that `toInt` hands to `std::stoi`. -/
def converted (v : Value) : List Str :=
  match v.type, v.value_ with
  | .string, .string s => [s]
  | _, _ => []

/-- `std::to_string(int)`. -/
def intToString (i : Int32) : Str :=
  if i.toInt < 0 then '-' :: Nat.toDigits 10 i.toInt.natAbs else Nat.toDigits 10 i.toInt.natAbs

/-- Also what `operator<<` and the `fmt` formatter of a `Value` print. -/
def toString (v : Value) : Except Fault Str :=
  match v.type with
  | .boolean => v.getBool.map fun b => if b then trueText else falseText
  | .integer => v.getInt.map intToString
  | .string => v.getString
  | .invalid => .ok []

def toAny (v : Value) : Except Fault AnyVal :=
  match v.type with
  | .boolean => v.getBool.map .bool
  | .integer => v.getInt.map .int
  | .string => v.getString.map .string
  | .invalid => .ok .empty

/-! ## The operators -/

/-- The result of an `int` operation, when it is in range. -/
def checkedInt (n : Int) : Except Fault Int32 :=
  if intMin ≤ n ∧ n ≤ intMax then .ok (.ofInt n) else .error .overflow

/-- `int / int`, truncated towards zero. -/
def divInt (i j : Int32) : Except Fault Int32 :=
  if j = 0 then .error .divideByZero else checkedInt (i.toInt.tdiv j.toInt)

/-- `int % int`: undefined where the quotient is. -/
def modInt (i j : Int32) : Except Fault Int32 := do
  let _ ← divInt i j
  return .ofInt (i.toInt.tmod j.toInt)

/-- `fmt::format("{}{}", toString(), that)`. -/
def concat (v that : Value) : Except Fault Value := do
  let s ← v.toString
  let t ← that.toString
  return ofString (s ++ t)

/-- `toBool() || that.toBool()`, the right side read only when the left is false. -/
def orBool (v that : Value) : Except Fault Bool := do
  if ← v.toBool then return true
  that.toBool

/-- `toBool() && that.toBool()`, the right side read only when the left is true. -/
def andBool (v that : Value) : Except Fault Bool := do
  if ← v.toBool then that.toBool else return false

/-- An arithmetic operator at type `INTEGER`. -/
def arith (op : Int32 → Int32 → Except Fault Int32) (v that : Value) : Except Fault Value := do
  let i ← v.toInt
  let j ← that.toInt
  return ofInt (← op i j)

/-- `operator+`. -/
def add (v that : Value) : Except Fault Value :=
  match v.type with
  | .boolean => (orBool v that).map ofBool
  | .integer => arith (fun i j => checkedInt (i.toInt + j.toInt)) v that
  | .string => concat v that
  | .invalid => .ok (ofBool false)

/-- `operator-`. -/
def sub (v that : Value) : Except Fault Value :=
  match v.type with
  | .boolean => (andBool v that).map fun b => ofBool !b
  | .integer => arith (fun i j => checkedInt (i.toInt - j.toInt)) v that
  | .string => concat v that
  | .invalid => .ok (ofBool false)

/-- `operator*`. The product of two `bool`s is an `int`. -/
def mul (v that : Value) : Except Fault Value :=
  match v.type with
  | .boolean => do
    let b ← v.toBool
    let c ← that.toBool
    return ofInt (if b && c then 1 else 0)
  | .integer => arith (fun i j => checkedInt (i.toInt * j.toInt)) v that
  | .string => concat v that
  | .invalid => .ok (ofBool false)

/-- `operator/`. -/
def div (v that : Value) : Except Fault Value :=
  match v.type with
  | .boolean => .ok (ofBool false)
  | .integer => arith divInt v that
  | .string => concat v that
  | .invalid => .ok (ofBool false)

/-- `operator%`. -/
def mod (v that : Value) : Except Fault Value :=
  match v.type with
  | .boolean => .ok (ofBool false)
  | .integer => arith modInt v that
  | .string => concat v that
  | .invalid => .ok (ofBool false)

/-- `operator||`. -/
def lor (v that : Value) : Except Fault Value :=
  match v.type with
  | .boolean => (orBool v that).map ofBool
  | .integer => do
    if (← v.toInt) ≠ 0 then return ofBool true
    return ofBool ((← that.toInt) ≠ 0)
  | .string => concat v that
  | .invalid => .ok (ofBool false)

/-- `operator&&`. -/
def land (v that : Value) : Except Fault Value :=
  match v.type with
  | .boolean => (andBool v that).map ofBool
  | .integer => do
    if (← v.toInt) = 0 then return ofBool false
    return ofBool ((← that.toInt) ≠ 0)
  | .string => concat v that
  | .invalid => .ok (ofBool false)

/-- A comparison operator: both sides read at the type of the left one, and compared there. -/
def compareWith (onBool : Bool → Bool → Bool) (onInt : Int32 → Int32 → Bool)
    (onString : Str → Str → Bool) (v that : Value) : Except Fault Bool :=
  match v.type with
  | .boolean => do return onBool (← v.toBool) (← that.toBool)
  | .integer => do return onInt (← v.toInt) (← that.toInt)
  | .string => do return onString (← v.toString) (← that.toString)
  | .invalid => .ok false

/-- `operator<`. -/
def lt : Value → Value → Except Fault Bool :=
  compareWith (fun a b => !a && b) (fun i j => i < j) fun s t => s < t

/-- `operator>`. -/
def gt : Value → Value → Except Fault Bool :=
  compareWith (fun a b => a && !b) (fun i j => j < i) fun s t => t < s

/-- `operator==`. -/
def beq : Value → Value → Except Fault Bool :=
  compareWith (· == ·) (· == ·) (· == ·)

/-- `operator!=`. -/
def bne (v that : Value) : Except Fault Bool := (beq v that).map (!·)

/-- The texts that `std::stoi` gets from an arithmetic operator or a comparison. A second call with
a text, in `>=` and `<=`, would change nothing. -/
def convertedWith (v that : Value) : List Str :=
  if v.type = .integer then v.converted ++ that.converted else []

/-- The texts that `std::stoi` gets from `operator||`. -/
def convertedByLor (v that : Value) : List Str :=
  match v.type, v.toInt with
  | .integer, .ok i => if i = 0 then that.converted else []
  | _, _ => []

/-- The texts that `std::stoi` gets from `operator&&`. -/
def convertedByLand (v that : Value) : List Str :=
  match v.type, v.toInt with
  | .integer, .ok i => if i = 0 then [] else that.converted
  | _, _ => []

end Value

/-! ## Well-tagged values -/

/-- A computation whose results have `P` and that reaches no wrong alternative of a variant. -/
abbrev Safe {α : Type} (P : α → Prop) (x : Except Fault α) : Prop :=
  x.wp P (· ≠ .badVariantAccess)

namespace Value

theorem wellTagged_ofBool (b : Bool) : (ofBool b).WellTagged := trivial

theorem wellTagged_ofInt (i : Int32) : (ofInt i).WellTagged := trivial

theorem wellTagged_ofString (s : Str) : (ofString s).WellTagged := trivial

theorem wellTagged_ofAny {a : AnyVal} (h : a ≠ .empty) (tag : ValueType) :
    (ofAny tag a).WellTagged := by
  cases a with
  | empty => exact absurd rfl h
  | bool | int | string => trivial

variable {v that : Value}

theorem WellTagged.eq (h : v.WellTagged) :
    (∃ b, v = ofBool b) ∨ (∃ i, v = ofInt i) ∨ ∃ s, v = ofString s := by
  rcases v with ⟨x, t⟩
  cases x <;> cases t <;> first | exact h.elim | skip
  · exact .inl ⟨_, rfl⟩
  · exact .inr (.inl ⟨_, rfl⟩)
  · exact .inr (.inr ⟨_, rfl⟩)

theorem WellTagged.toBool (h : v.WellTagged) : Safe (fun _ => True) v.toBool := by
  rcases h.eq with ⟨b, rfl⟩ | ⟨i, rfl⟩ | ⟨s, rfl⟩ <;> trivial

theorem WellTagged.toInt (h : v.WellTagged) : Safe (fun _ => True) v.toInt := by
  rcases h.eq with ⟨b, rfl⟩ | ⟨i, rfl⟩ | ⟨s, rfl⟩ <;> trivial

theorem WellTagged.toString (h : v.WellTagged) : Safe (fun _ => True) v.toString := by
  rcases h.eq with ⟨b, rfl⟩ | ⟨i, rfl⟩ | ⟨s, rfl⟩ <;> trivial

theorem WellTagged.toAny (h : v.WellTagged) : Safe (· ≠ .empty) v.toAny := by
  rcases h.eq with ⟨b, rfl⟩ | ⟨i, rfl⟩ | ⟨s, rfl⟩ <;> exact nofun

/-- The accessors of a well-tagged value succeed. -/
theorem WellTagged.exists_ok (h : v.WellTagged) :
    (∃ b, v.toBool = .ok b) ∧ (∃ i, v.toInt = .ok i) ∧ ∃ s, v.toString = .ok s := by
  rcases h.eq with ⟨b, rfl⟩ | ⟨i, rfl⟩ | ⟨s, rfl⟩ <;> exact ⟨⟨_, rfl⟩, ⟨_, rfl⟩, ⟨_, rfl⟩⟩

/-- A value has a text when its type is that of what it holds, or no type at all. -/
theorem toString_ok_iff : (∃ s, v.toString = .ok s) ↔ v.WellTagged ∨ v.type = .invalid := by
  constructor
  · rintro ⟨s, hs⟩
    rcases v with ⟨x, t⟩
    cases t with
    | invalid => exact .inr rfl
    | boolean | integer | string => cases x <;> first | exact .inl trivial | cases hs
  · rintro (h | h)
    · exact h.exists_ok.2.2
    · exact ⟨[], by rw [Value.toString, h]⟩

/-! ### The operators -/

theorem safe_checkedInt (n : Int) : Safe (fun _ => True) (checkedInt n) := by
  unfold checkedInt
  split_ifs
  · trivial
  · exact nofun

theorem safe_divInt (i j : Int32) : Safe (fun _ => True) (divInt i j) := by
  unfold divInt
  split_ifs
  · exact nofun
  · exact safe_checkedInt _

theorem safe_modInt (i j : Int32) : Safe (fun _ => True) (modInt i j) := by
  simp only [modInt, Except.wp_bind, Except.wp_pure]
  exact safe_divInt i j

theorem WellTagged.concat (h : v.WellTagged) (h' : that.WellTagged) :
    Safe WellTagged (concat v that) := by
  simp only [Value.concat, Except.wp_bind, Except.wp_pure]
  exact Except.wp_mono h.toString fun s _ =>
    Except.wp_mono h'.toString fun t _ => wellTagged_ofString (s ++ t)

theorem WellTagged.orBool (h : v.WellTagged) (h' : that.WellTagged) :
    Safe (fun _ => True) (orBool v that) := by
  simp only [Value.orBool, Except.wp_bind]
  refine Except.wp_mono h.toBool fun b _ => ?_
  cases b with
  | false => exact h'.toBool
  | true => trivial

theorem WellTagged.andBool (h : v.WellTagged) (h' : that.WellTagged) :
    Safe (fun _ => True) (andBool v that) := by
  simp only [Value.andBool, Except.wp_bind]
  refine Except.wp_mono h.toBool fun b _ => ?_
  cases b with
  | false => trivial
  | true => exact h'.toBool

theorem WellTagged.arith {op : Int32 → Int32 → Except Fault Int32}
    (hop : ∀ i j, Safe (fun _ => True) (op i j)) (h : v.WellTagged) (h' : that.WellTagged) :
    Safe WellTagged (arith op v that) := by
  simp only [Value.arith, Except.wp_bind, Except.wp_pure]
  exact Except.wp_mono h.toInt fun i _ => Except.wp_mono h'.toInt fun j _ =>
    Except.wp_mono (hop i j) fun k _ => wellTagged_ofInt k

/-- A `bool` as a `Value`. -/
theorem safe_ofBool {x : Except Fault Bool} (h : Safe (fun _ => True) x) {f : Bool → Bool} :
    Safe WellTagged (x.map fun b => ofBool (f b)) :=
  (Except.wp_map ..).mpr (Except.wp_mono h fun b _ => wellTagged_ofBool (f b))

theorem WellTagged.add (h : v.WellTagged) (h' : that.WellTagged) : Safe WellTagged (add v that) := by
  rcases h.eq with ⟨b, rfl⟩ | ⟨i, rfl⟩ | ⟨s, rfl⟩
  · exact safe_ofBool (h.orBool h')
  · exact h.arith (fun _ _ => safe_checkedInt _) h'
  · exact h.concat h'

theorem WellTagged.sub (h : v.WellTagged) (h' : that.WellTagged) : Safe WellTagged (sub v that) := by
  rcases h.eq with ⟨b, rfl⟩ | ⟨i, rfl⟩ | ⟨s, rfl⟩
  · exact safe_ofBool (h.andBool h')
  · exact h.arith (fun _ _ => safe_checkedInt _) h'
  · exact h.concat h'

theorem WellTagged.mul (h : v.WellTagged) (h' : that.WellTagged) : Safe WellTagged (mul v that) := by
  rcases h.eq with ⟨b, rfl⟩ | ⟨i, rfl⟩ | ⟨s, rfl⟩
  · exact (Except.wp_bind ..).mpr (Except.wp_mono h.toBool fun _ _ =>
      (Except.wp_bind ..).mpr (Except.wp_mono h'.toBool fun _ _ => trivial))
  · exact h.arith (fun _ _ => safe_checkedInt _) h'
  · exact h.concat h'

theorem WellTagged.div (h : v.WellTagged) (h' : that.WellTagged) : Safe WellTagged (div v that) := by
  rcases h.eq with ⟨b, rfl⟩ | ⟨i, rfl⟩ | ⟨s, rfl⟩
  · exact wellTagged_ofBool false
  · exact h.arith safe_divInt h'
  · exact h.concat h'

theorem WellTagged.mod (h : v.WellTagged) (h' : that.WellTagged) : Safe WellTagged (mod v that) := by
  rcases h.eq with ⟨b, rfl⟩ | ⟨i, rfl⟩ | ⟨s, rfl⟩
  · exact wellTagged_ofBool false
  · exact h.arith safe_modInt h'
  · exact h.concat h'

theorem WellTagged.lor (h : v.WellTagged) (h' : that.WellTagged) : Safe WellTagged (lor v that) := by
  rcases h.eq with ⟨b, rfl⟩ | ⟨i, rfl⟩ | ⟨s, rfl⟩
  · exact safe_ofBool (h.orBool h')
  -- The right side is read only when the left one is 0.
  · refine (Except.wp_bind ..).mpr (Except.wp_mono h.toInt fun j _ => ?_)
    split_ifs
    · exact wellTagged_ofBool true
    · exact (Except.wp_bind ..).mpr (Except.wp_mono h'.toInt fun _ _ => trivial)
  · exact h.concat h'

theorem WellTagged.land (h : v.WellTagged) (h' : that.WellTagged) :
    Safe WellTagged (land v that) := by
  rcases h.eq with ⟨b, rfl⟩ | ⟨i, rfl⟩ | ⟨s, rfl⟩
  · exact safe_ofBool (h.andBool h')
  -- The right side is read only when the left one is not 0.
  · refine (Except.wp_bind ..).mpr (Except.wp_mono h.toInt fun j _ => ?_)
    split_ifs
    · exact wellTagged_ofBool false
    · exact (Except.wp_bind ..).mpr (Except.wp_mono h'.toInt fun _ _ => trivial)
  · exact h.concat h'

theorem WellTagged.compareWith (onBool : Bool → Bool → Bool) (onInt : Int32 → Int32 → Bool)
    (onString : Str → Str → Bool) (h : v.WellTagged) (h' : that.WellTagged) :
    Safe (fun _ => True) (compareWith onBool onInt onString v that) := by
  rcases h.eq with ⟨b, rfl⟩ | ⟨i, rfl⟩ | ⟨s, rfl⟩
  · exact (Except.wp_bind ..).mpr (Except.wp_mono h.toBool fun _ _ =>
      (Except.wp_bind ..).mpr (Except.wp_mono h'.toBool fun _ _ => trivial))
  · exact (Except.wp_bind ..).mpr (Except.wp_mono h.toInt fun _ _ =>
      (Except.wp_bind ..).mpr (Except.wp_mono h'.toInt fun _ _ => trivial))
  · exact (Except.wp_bind ..).mpr (Except.wp_mono h.toString fun _ _ =>
      (Except.wp_bind ..).mpr (Except.wp_mono h'.toString fun _ _ => trivial))

end Value

end WwivBasic
