import WwivBasic.Balance
import WwivBasic.FunctionDef
import WwivBasic.Stdlib

/-!
# Calls of the standard functions

A BASIC program calls a function by its name, and the standard functions are registered by the
argument of `REGISTER_NATIVE`, qualifier and colons included. No name of a program has a colon, so
a call by the plain name finds nothing.

## Main definitions

* `StandardCall`: the standard functions at the arguments they expect

## Main results

* `find?_init`: `Context()` registers nothing under the plain names
* `standardCall_false`: what a call by a plain name gives
-/

namespace WwivBasic

open EStateM

/-- The names of the standard functions without their qualifier. -/
def plainNames : List Str := stdlibFunctions.map fun f => f.1.drop Stdlib.stdlibText.length

/-- A standard function by its plain name, with arguments of the types and the count it expects,
and what it returns for them. -/
inductive StandardCall : Str → List Value → Except Fault Value → Prop
  | abs (n : Int32) : StandardCall ['a', 'b', 's'] [.ofInt n] ((Stdlib.abs n).map .ofInt)
  | len (v : Value) : StandardCall ['l', 'e', 'n'] [v] (Stdlib.len [v])
  | val (v : Value) : StandardCall ['v', 'a', 'l'] [v] (Stdlib.val [v])
  | asc (s : Str) : StandardCall ['a', 's', 'c'] [.ofString s] (.ok (.ofInt (Stdlib.asc s)))
  | chr (c : Int32) : StandardCall ['c', 'h', 'r'] [.ofInt c] (.ok (.ofString (Stdlib.chr c)))
  | left (s : Str) (len : Int32) : StandardCall ['l', 'e', 'f', 't'] [.ofString s, .ofInt len]
      (.ok (.ofString (Stdlib.left s len)))
  | right (s : Str) (len : Int32) : StandardCall ['r', 'i', 'g', 'h', 't']
      [.ofString s, .ofInt len] (.ok (.ofString (Stdlib.right s len)))
  /-- `mid` takes a text, and where its middle part starts and how long it is if these are given. -/
  | mid (s : Value) (bounds : List Value) (h : bounds.length ≤ 2) :
      StandardCall ['m', 'i', 'd'] (s :: bounds) (Stdlib.mid (s :: bounds))

namespace StandardCall

variable {name : Str} {args : List Value} {result : Except Fault Value}

theorem name_mem (h : StandardCall name args result) : name ∈ plainNames := by
  cases h <;> decide

/-- No standard function returns a truth value. -/
theorem toAny_ne (h : StandardCall name args result) {val : Value} (hval : result = .ok val) :
    val.toAny ≠ .ok (.bool false) := by
  have hint : ∀ x : Except Fault Int32, x.map Value.ofInt = .ok val →
      val.toAny ≠ .ok (.bool false) := by
    intro x hx
    obtain ⟨i, -, rfl⟩ := Except.map_eq_ok.mp hx
    nofun
  have hstring : ∀ s, .ok (Value.ofString s) = result → val.toAny ≠ .ok (.bool false) := by
    rintro s rfl
    obtain rfl := Except.ok.inj hval
    nofun
  cases h with
  | abs n => exact hint _ hval
  | len v =>
    obtain ⟨s, -, rfl⟩ := Except.map_eq_ok.mp hval
    nofun
  | val v => exact hint _ hval
  | asc s =>
    obtain rfl := Except.ok.inj hval
    nofun
  | chr c => exact hstring _ rfl
  | left s len => exact hstring _ rfl
  | right s len => exact hstring _ rfl
  | mid s bounds hlen =>
    -- Each form of the call ends with a text.
    rcases bounds with - | ⟨start, - | ⟨len, bounds⟩⟩
    · obtain ⟨text, -, rfl⟩ := Except.map_eq_ok.mp hval
      nofun
    · obtain ⟨text, -, hrest⟩ := Except.bind_eq_ok.mp hval
      obtain ⟨i, -, hend⟩ := Except.bind_eq_ok.mp hrest
      obtain rfl := Except.ok.inj hend
      nofun
    · obtain ⟨text, -, hrest⟩ := Except.bind_eq_ok.mp hval
      obtain ⟨i, -, hend⟩ := Except.bind_eq_ok.mp hrest
      split_ifs at hend
      · obtain ⟨j, -, hend⟩ := Except.bind_eq_ok.mp hend
        obtain rfl := Except.ok.inj hend
        nofun
      · obtain rfl := Except.ok.inj hend
        nofun

end StandardCall

/-! ## Names -/

variable {name called : Str}

theorem find?_initial (h : name ∈ plainNames) : Module.initial.functions.find? name = none := by
  simp only [plainNames, stdlibFunctions, List.map_cons, List.map_nil, List.mem_cons,
    List.not_mem_nil, or_false] at h
  rcases h with rfl | rfl | rfl | rfl | rfl | rfl | rfl | rfl <;> rfl

/-- `Context()` registers nothing under a plain name, in whatever case it is written. -/
theorem find?_init (h : name ∈ plainNames) (hcalled : SameLetters called name) (key : Str) :
    (Context.init.moduleAt key).functions.find? called = none := by
  rw [OrderedMap.find?_congr _ hcalled.strcasecmp, Context.moduleAt, Context.init,
    OrderedMap.find?_emplace]
  split_ifs
  · exact find?_initial h
  · rfl

/-- A plain name has no package. -/
theorem splitPackageFromId_fst (h : name ∈ plainNames) (hcalled : SameLetters called name) :
    (splitPackageFromId called).1 = [] := by
  have hname : ∀ name ∈ plainNames, (splitPackageFromId name).1 = [] := by decide
  have hsplit := hcalled.splitPackageFromId.1
  rw [hname name h] at hsplit
  exact List.map_eq_nil_iff.mp hsplit

/-! ## Calls -/

/-- A call of a function that no module has is reported, and has the value `false`. -/
theorem call_unknown (v : Visitor) {function : Str} (args : List Value) {s : Machine}
    (hpkg : (splitPackageFromId function).1 = [])
    (hfind : ∀ key, (s.ec.moduleAt key).functions.find? function = none) :
    Context.call v function args s = .ok (.ofBool false) s := by
  have hcall : ∀ self, wp (Module.call v self function args)
      (fun val t => val = .ofBool false ∧ t = s) (fun _ _ => False) s := by
    intro self
    simp only [Module.call, wp_bind, wp_get, hfind self, wp_pure, and_self]
  have hwp : wp (Context.call v function args)
      (fun val t => val = .ofBool false ∧ t = s) (fun _ _ => False) s := by
    simp only [Context.call, wp_bind, wp_get, hpkg, ne_eq, not_true_eq_false, if_false]
    split_ifs
    · exact hcall s.ec.root
    · exact hcall s.ec.module
  cases hr : Context.call v function args s with
  | ok val t =>
    obtain ⟨rfl, rfl⟩ := wp_ok hwp hr
    rfl
  | error e t => exact (wp_error hwp hr).elim

/-- **A call by the plain name of a standard function** has the value `false`, whatever the
function returns, as long as its name means in the context what it means in `Context()`. -/
theorem standardCall_false {values : List Value} {result : Except Fault Value}
    (hstd : StandardCall name values result) (hcalled : SameLetters called name) (n : ℕ)
    {s t : Machine} (hfind : ∀ key, (s.ec.moduleAt key).functions.find? called =
      (Context.init.moduleAt key).functions.find? called) {args : List Expr}
    (hargs : visitParameterList (visitor n) args s = .ok values t) :
    (visitor (n + 1)).expr (.procCall called args) s = .ok (.bool false) (t.setReturn false) ∧
      ¬ ∃ val a u, result = .ok val ∧ val.toAny = .ok a ∧
        (visitor (n + 1)).expr (.procCall called args) s = .ok a u := by
  have hname := hstd.name_mem
  -- The arguments may run anything, but register nothing.
  have hgrows : s.ec.Grows t.ec :=
    (wp_ok (keeps_visitParameterList rules_balance (visitor_keeps rules_balance n) args s) hargs).ec
  have hcall : Context.call (visitor n) called values t = .ok (.ofBool false) t := by
    refine call_unknown _ _ (splitPackageFromId_fst hname hcalled) fun key => ?_
    rw [hgrows.functions, hfind, find?_init hname hcalled]
  have hvisit : (visitor (n + 1)).expr (.procCall called args) s =
      .ok (.bool false) (t.setReturn false) := by
    refine (bind_of_ok hargs).trans ?_
    exact bind_of_ok hcall
  refine ⟨hvisit, ?_⟩
  rintro ⟨val, a, u, hval, hany, hu⟩
  rw [hvisit] at hu
  obtain rfl : AnyVal.bool false = a := (Result.ok.inj hu).1
  exact hstd.toAny_ne hval hany

/-- `LEN("ab")`. -/
def lenOfText : Expr := .procCall ['L', 'E', 'N'] [.string ['"', 'a', 'b', '"']]

/-- The state in which a program begins. -/
def initialState : Machine := .start .init fun _ => .integer

theorem standardCall_false_len :
    (∃ t, (visitor 2).expr lenOfText initialState = .ok (.bool false) t) ∧
      Stdlib.len [.ofString ['a', 'b']] = .ok (.ofInt 2) :=
  have hcase : SameLetters ['L', 'E', 'N'] ['l', 'e', 'n'] := rfl
  ⟨⟨_, (standardCall_false (.len (.ofString ['a', 'b'])) hcase 1 (fun _ => rfl) rfl).1⟩, rfl⟩

/-- `LEN("ab")` is `false` and not 2. -/
theorem len_ne :
    (match (visitor 2).expr lenOfText initialState with
      | .ok a _ => some a
      | .error _ _ => none) = some (.bool false) ∧
      (Stdlib.len [.ofString ['a', 'b']]).map Value.toAny = .ok (.ok (.int 2)) := by
  decide

end WwivBasic
