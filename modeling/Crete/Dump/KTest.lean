/-
  File:      Crete/Dump/KTest.lean
  Subject:   The test case that KLEE emits beside a .ktest file (lib/Basic/KTest.cpp): the bytes
             of every concolic variable, found in the object around it.

  * `kTestToFile` -- the .ktest file, then the scan (`kTestTestCase`) with its 32-bit and 64-bit
    arithmetic.
  * `Layout` -- every variable lies in exactly one object and every object holds one.
  * `Complete` -- one element for every variable, with its name, its size and its bytes.
  * **`complete_iff_fits`** -- the test case is complete if the .ktest file has no empty string or
    object, which cannot be written, and no object ends at the end of the address space, where
    the end addresses wrap; for variables with distinct names that is also needed, but for a
    single variable that ends there itself.
-/
import Crete.TestCase.Pool
import Mathlib.Data.List.Pairwise

namespace Crete.Dump

open Crete.Lib List UInt64

/-! ## 1. The scan -/

/-- `struct ConcolicVariable`. -/
structure ConcolicVariable where
  name : Bytes
  concreteValue : Bytes
  dataSize : UInt64
  guestAddr : UInt64
  hostAddr : UInt64
  deriving DecidableEq, Repr

/-- `struct KTestObject`: a range of the 64-bit address space with its bytes. -/
structure KTestObject where
  name : Bytes
  address : UInt64
  numBytes : UInt32
  bytes : Bytes
  length_eq : bytes.length = numBytes.toNat
  inSpace : address.toNat + numBytes.toNat ≤ 2 ^ 64
  deriving DecidableEq

/-- `struct KTest`: the arguments and the objects. `symArgvs` and `symArgvLen` are 0. -/
structure KTest where
  args : List Bytes
  objects : List KTestObject
  deriving DecidableEq

/-- `write_uint32`: the highest byte first. -/
def writeUint32 (value : UInt32) : Bytes := (leBytes 4 value.toNat).reverse

/-- One item of `len` bytes by `fwrite`, which reports failure if `len` is 0. -/
def fwriteItem (bytes : Bytes) : Option Bytes := if bytes = [] then none else some bytes

/-- `write_string`. -/
def writeString (value : Bytes) : Option Bytes := do
  let bytes ← fwriteItem value
  return writeUint32 (UInt32.ofNat value.length) ++ bytes

/-- An object in the .ktest file. -/
def writeObject (o : KTestObject) : Option Bytes := do
  let name ← writeString o.name
  let bytes ← fwriteItem o.bytes
  return name ++ (writeUint32 o.numBytes ++ bytes)

/-- The .ktest file: nothing if a write reports failure. -/
def ktestFile (b : KTest) : Option Bytes := do
  let args ← b.args.mapM writeString
  let objects ← b.objects.mapM writeObject
  return bytesOf "KTEST" ++ (writeUint32 3 ++ (writeUint32 (UInt32.ofNat b.args.length) ++
    (args.flatten ++ (writeUint32 0 ++ (writeUint32 0 ++
      (writeUint32 (UInt32.ofNat b.objects.length) ++ objects.flatten))))))

/-- How `kTest_toFile` can end other than by writing the test case: at `error`, at the assertion,
    or at an access outside an object. -/
inductive KTestStop where
  | notWritten
  | assertion (expr : String)
  | badAccess
  deriving DecidableEq, Repr

/-- `concolic_size`: the size cut to 32 bits. -/
def ConcolicVariable.size (v : ConcolicVariable) : UInt32 := v.dataSize.toUInt32

/-- `concolic_addr_end`. -/
def ConcolicVariable.addrEnd (v : ConcolicVariable) : UInt64 := v.guestAddr + v.size.toUInt64

/-- `obj_addr_end`. -/
def KTestObject.addrEnd (o : KTestObject) : UInt64 := o.address + o.numBytes.toUInt64

/-- The scan's test: the variable is in the object. -/
def Covers (o : KTestObject) (v : ConcolicVariable) : Prop :=
  o.address ≤ v.guestAddr ∧ v.addrEnd ≤ o.addrEnd
  deriving Decidable

/-- `temp_index`, cut to 32 bits. -/
def byteIndex (o : KTestObject) (v : ConcolicVariable) (i : Nat) : Nat :=
  (v.guestAddr - o.address + UInt64.ofNat i).toUInt32.toNat

/-- `obj.bytes[temp_index]`. -/
def objectByte (o : KTestObject) (v : ConcolicVariable) (i : Nat) : Except KTestStop UInt8 :=
  match o.bytes[byteIndex o v i]? with
  | some b => .ok b
  | none => .error .badAccess

/-- The element for a variable. -/
def variableElement (o : KTestObject) (v : ConcolicVariable) :
    Except KTestStop TestCaseElement := do
  let data ← (range v.size.toNat).mapM (objectByte o v)
  return ⟨UInt32.ofNat v.name.length, v.name, v.size, data⟩

/-- The inner loop of `kTest_toFile`, and its assertion. -/
def scanObject (vars : List ConcolicVariable) (o : KTestObject) :
    Except KTestStop (List TestCaseElement) := do
  let elems ← (vars.filter fun v => Covers o v).mapM (variableElement o)
  ensure (elems ≠ [])
    (.assertion "found && \"no concolic memory found associated with KTestObject\"")
  return elems

/-- The test case, object by object. -/
def kTestTestCase (objs : List KTestObject) (vars : List ConcolicVariable) :
    Except KTestStop TestCase := do
  let elems ← objs.mapM (scanObject vars)
  return ⟨elems.flatten⟩

/-- `kTest_toFile`, and the test case it writes beside the file. -/
def kTestToFile (b : KTest) (vars : List ConcolicVariable) : Except KTestStop TestCase :=
  match ktestFile b with
  | none => .error .notWritten
  | some _ => kTestTestCase b.objects vars

/-! ## 2. Layouts -/

/-- Where a variable ends, without wrapping. -/
def ConcolicVariable.stop (v : ConcolicVariable) : Nat := v.guestAddr.toNat + v.dataSize.toNat

open ConcolicVariable

/-- Where an object ends, without wrapping. -/
def KTestObject.stop (o : KTestObject) : Nat := o.address.toNat + o.numBytes.toNat

/-- The variable lies inside the object. -/
def Inside (o : KTestObject) (v : ConcolicVariable) : Prop :=
  o.address.toNat ≤ v.guestAddr.toNat ∧ v.stop ≤ o.stop
  deriving Decidable

/-- No address in both objects. -/
def ObjectsApart (o o' : KTestObject) : Prop :=
  ∀ a, ¬ (o.address.toNat ≤ a ∧ a < o.stop ∧ o'.address.toNat ≤ a ∧ a < o'.stop)

instance : Std.Symm ObjectsApart :=
  ⟨fun _ _ h a ha => h a ⟨ha.2.2.1, ha.2.2.2, ha.1, ha.2.1⟩⟩

/-- **Variables in objects**: both disjoint, each variable inside exactly one object, and at
    least one variable inside each object. -/
structure Layout (objs : List KTestObject) (vars : List ConcolicVariable) : Prop where
  objsApart : objs.Pairwise ObjectsApart
  varsApart : vars.Pairwise fun v v' => ∀ a, ¬ (v.guestAddr.toNat ≤ a ∧ a < v.stop ∧
    v'.guestAddr.toNat ≤ a ∧ a < v'.stop)
  inOne : ∀ v ∈ vars, ∃ o, objs.filter (fun o => Inside o v) = [o]
  covered : ∀ o ∈ objs, ∃ v ∈ vars, Inside o v

/-- The element says what the variable is: its name, its size, and the bytes at its address. -/
structure Describes (objs : List KTestObject) (v : ConcolicVariable) (e : TestCaseElement) :
    Prop where
  name : e.name = v.name
  size : e.dataSize.toNat = v.dataSize.toNat
  data : ∃ o ∈ objs, Inside o v ∧
    e.data = (o.bytes.drop (v.guestAddr.toNat - o.address.toNat)).take v.dataSize.toNat
  sized : e.Sized

/-- One element for every variable, and no other. -/
def Lists (objs : List KTestObject) (vars : List ConcolicVariable) (tc : TestCase) : Prop :=
  ∃ es, es.Perm tc.elems ∧ List.Forall₂ (Describes objs) vars es

/-- **The test case has exactly one element for every variable.** -/
def Complete (b : KTest) (vars : List ConcolicVariable) : Prop :=
  ∃ tc, kTestToFile b vars = .ok tc ∧ Lists b.objects vars tc

/-- The names fit a 32-bit size field, and no object ends at the end of the address space, unless
    there is just one variable in all and it ends there too. -/
def Fits (objs : List KTestObject) (vars : List ConcolicVariable) : Prop :=
  (∀ v ∈ vars, v.name.length < 2 ^ 32) ∧
    ((∀ o ∈ objs, o.stop < 2 ^ 64) ∨ ∃ o v, objs = [o] ∧ vars = [v] ∧ v.stop = 2 ^ 64)

/-- Nothing in the file is empty: no argument, no object's name and no object. -/
def Writable (b : KTest) : Prop :=
  (∀ a ∈ b.args, a ≠ []) ∧ ∀ o ∈ b.objects, o.name ≠ [] ∧ o.bytes ≠ []

/-! ## 3. The scan's test -/

variable {vars : List ConcolicVariable} {objs : List KTestObject} {v : ConcolicVariable}
  {o : KTestObject}

theorem KTestObject.stop_le (o : KTestObject) : o.stop ≤ 2 ^ 64 := o.inSpace

/-- The size of a variable inside an object is not cut. -/
theorem Inside.size_toNat (h : Inside o v) : v.size.toNat = v.dataSize.toNat := by
  have hn := o.numBytes.toNat_lt
  obtain ⟨h₁, h₂⟩ := h
  unfold stop KTestObject.stop at h₂
  rw [ConcolicVariable.size, toNat_toUInt32, Nat.mod_eq_of_lt]
  omega

theorem KTestObject.addrEnd_toNat (o : KTestObject) : o.addrEnd.toNat = o.stop % 2 ^ 64 := by
  rw [KTestObject.addrEnd, UInt64.toNat_add, UInt32.toNat_toUInt64]
  rfl

theorem Inside.addrEnd_toNat (h : Inside o v) : v.addrEnd.toNat = v.stop % 2 ^ 64 := by
  rw [addrEnd, UInt64.toNat_add, UInt32.toNat_toUInt64, h.size_toNat]
  rfl

theorem Covers.iff_toNat {o₀ o : KTestObject} (h : Inside o₀ v) :
    Covers o v ↔ o.address.toNat ≤ v.guestAddr.toNat ∧ v.stop % 2 ^ 64 ≤ o.stop % 2 ^ 64 := by
  rw [Covers, le_iff_toNat_le, le_iff_toNat_le, h.addrEnd_toNat, o.addrEnd_toNat]

/-- **Where nothing wraps, the test is right.** -/
theorem covers_iff (h : Layout objs vars) (hf : Fits objs vars) (ho : o ∈ objs)
    (hv : v ∈ vars) : Covers o v ↔ Inside o v := by
  obtain ⟨o₀, ho₀⟩ := h.inOne v hv
  have hmem : o₀ ∈ objs.filter fun o => Inside o v := by rw [ho₀]; exact mem_singleton_self _
  have hin : Inside o₀ v := of_decide_eq_true (mem_filter.1 hmem).2
  rw [Covers.iff_toNat hin]
  rcases hf.2 with hlt | ⟨o₁, v₁, rfl, rfl, hstop⟩
  · have h₁ := hlt o ho
    have h₂ := hlt o₀ (mem_filter.1 hmem).1
    rw [Nat.mod_eq_of_lt h₁, Nat.mod_eq_of_lt (Nat.lt_of_le_of_lt hin.2 h₂)]
    rfl
  · -- the only variable ends where the only object ends, and both ends wrap to zero
    obtain rfl := mem_singleton.1 ho
    obtain rfl := mem_singleton.1 hv
    obtain rfl : o₀ = o := mem_singleton.1 (mem_filter.1 hmem).1
    have := o₀.stop_le
    have hle := hin.2
    exact ⟨fun _ => hin, fun _ => ⟨hin.1, by rw [hstop]; omega⟩⟩

/-! ## 4. What the scan emits -/

/-- The element with the bytes at the variable's address. -/
def elementAt (o : KTestObject) (v : ConcolicVariable) : TestCaseElement :=
  ⟨UInt32.ofNat v.name.length, v.name, v.size,
    (o.bytes.drop (v.guestAddr.toNat - o.address.toNat)).take v.dataSize.toNat⟩

theorem byteIndex_eq (h : Inside o v) {i : Nat} (hi : i < v.dataSize.toNat) :
    byteIndex o v i = v.guestAddr.toNat - o.address.toNat + i := by
  obtain ⟨h₁, h₂⟩ := h
  have hn := o.numBytes.toNat_lt
  have hg := v.guestAddr.toNat_lt
  unfold stop KTestObject.stop at h₂
  rw [byteIndex, toNat_toUInt32, UInt64.toNat_add, toNat_ofNat',
    UInt64.toNat_sub_of_le _ _ (le_iff_toNat_le.2 h₁)]
  omega

/-- Inside an object, the element is read off without leaving it. -/
theorem variableElement_eq (h : Inside o v) : variableElement o v = .ok (elementAt o v) := by
  have hb : ∀ i ∈ range v.size.toNat,
      objectByte o v i = .ok (o.bytes[v.guestAddr.toNat - o.address.toNat + i]?.getD 0) := by
    intro i hi
    have hi' : i < v.dataSize.toNat := by
      rw [← h.size_toNat]
      exact mem_range.1 hi
    have hlt : v.guestAddr.toNat - o.address.toNat + i < o.bytes.length := by
      obtain ⟨h₁, h₂⟩ := h
      unfold stop KTestObject.stop at h₂
      rw [o.length_eq]
      omega
    rw [objectByte, byteIndex_eq h hi', getElem?_eq_getElem hlt]
    rfl
  have hdata : (range v.size.toNat).map
      (fun i => o.bytes[v.guestAddr.toNat - o.address.toNat + i]?.getD 0) =
      (o.bytes.drop (v.guestAddr.toNat - o.address.toNat)).take v.dataSize.toNat := by
    obtain ⟨h₁, h₂⟩ := h
    have hlen := o.length_eq
    unfold stop KTestObject.stop at h₂
    refine ext_getElem ?_ fun i hi hi' => ?_
    · rw [length_map, length_range, Inside.size_toNat ⟨h₁, h₂⟩, length_take, length_drop]
      omega
    · rw [length_take, length_drop] at hi'
      rw [getElem_map, getElem_range, getElem_take, getElem_drop, getElem?_eq_getElem (by omega)]
      rfl
  rw [variableElement, mapM_ok hb, ok_bind, hdata]
  rfl

theorem elementAt_describes (ho : o ∈ objs) (h : Inside o v) (hname : v.name.length < 2 ^ 32) :
    Describes objs v (elementAt o v) where
  name := rfl
  size := h.size_toNat
  data := ⟨o, ho, h, rfl⟩
  sized := by
    refine ⟨?_, ?_⟩
    · show (UInt32.ofNat v.name.length).toNat = v.name.length
      rw [UInt32.toNat_ofNat', Nat.mod_eq_of_lt hname]
    · show v.size.toNat = ((o.bytes.drop _).take _).length
      obtain ⟨h₁, h₂⟩ := h
      have hlen := o.length_eq
      rw [Inside.size_toNat ⟨h₁, h₂⟩, length_take, length_drop]
      unfold stop KTestObject.stop at h₂
      omega

/-- The scan, where its test is right. -/
theorem kTestTestCase_eq (h : Layout objs vars) (hf : Fits objs vars) : kTestTestCase objs vars =
      .ok ⟨objs.flatMap fun o => (vars.filter fun v => Inside o v).map (elementAt o)⟩ := by
  have hscan : ∀ o ∈ objs, scanObject vars o =
      .ok ((vars.filter fun v => Inside o v).map (elementAt o)) := by
    intro o ho
    have hfilter : (vars.filter fun v => Covers o v) = vars.filter fun v => Inside o v :=
      filter_congr fun v hv => by rw [decide_eq_decide]; exact covers_iff h hf ho hv
    have hmap : (vars.filter fun v => Inside o v).mapM (variableElement o) =
        .ok ((vars.filter fun v => Inside o v).map (elementAt o)) :=
      mapM_ok fun v hv => variableElement_eq (of_decide_eq_true (mem_filter.1 hv).2)
    obtain ⟨v, hv, hin⟩ := h.covered o ho
    have hne : (vars.filter fun v => Inside o v).map (elementAt o) ≠ [] := by
      refine ne_nil_of_mem (mem_map_of_mem (a := v) ?_)
      exact mem_filter.2 ⟨hv, decide_eq_true hin⟩
    rw [scanObject, hfilter, hmap, ok_bind, ensure_bind, if_pos hne]
    rfl
  rw [kTestTestCase, mapM_ok hscan, ok_bind, flatMap]
  rfl

/-- **One element for every variable**, where the scan's test is right. -/
theorem lists_of_fits (h : Layout objs vars) (hf : Fits objs vars) :
    ∃ tc, kTestTestCase objs vars = .ok tc ∧ Lists objs vars tc := by
  refine ⟨_, kTestTestCase_eq h hf, _, (flatMap_filter_perm Inside elementAt objs vars).symm, ?_⟩
  have hone : ∀ v ∈ vars, ∃ e, Describes objs v e ∧
      ((objs.filter fun o => Inside o v).map fun o => elementAt o v) = [e] := by
    intro v hv
    obtain ⟨o, ho⟩ := h.inOne v hv
    have hmem : o ∈ objs.filter fun o => Inside o v := by rw [ho]; exact mem_singleton_self _
    obtain ⟨ho', hin⟩ := mem_filter.1 hmem
    refine ⟨elementAt o v, elementAt_describes ho' (of_decide_eq_true hin) (hf.1 v hv), ?_⟩
    rw [ho]
    rfl
  clear h hf
  induction vars with
  | nil => exact .nil
  | cons v vars ih =>
    obtain ⟨e, he, heq⟩ := hone v (.head _)
    rw [flatMap_cons, heq]
    exact .cons he (ih (forall_mem_cons.1 hone).2)

/-! ## 5. Where the ends wrap -/

theorem names_of_variables
    {es : List TestCaseElement} (h : vars.mapM (variableElement o) = .ok es) :
    es.map TestCaseElement.name = vars.map ConcolicVariable.name := by
  have hf := mapM_forall₂ h
  clear h
  induction hf with
  | nil => rfl
  | cons hv _ ih =>
    obtain ⟨data, -, hv⟩ := bind_eq_ok.1 hv
    cases hv
    rw [map_cons, map_cons, ih]

/-- What the scan passed, if it returned: the names, object by object. -/
theorem names_of_ok {tc : TestCase}
    (h : kTestTestCase objs vars = .ok tc) : tc.elems.map TestCaseElement.name =
      objs.flatMap fun o => (vars.filter fun v => Covers o v).map ConcolicVariable.name := by
  obtain ⟨ess, hess, h'⟩ := bind_eq_ok.1 h
  cases h'
  have hf := mapM_forall₂ hess
  clear hess h
  show ess.flatten.map _ = _
  induction hf with
  | nil => rfl
  | cons ho _ ih =>
    obtain ⟨es, hes, ho⟩ := bind_eq_ok.1 ho
    obtain ⟨-, ho⟩ := ensure_bind_eq_ok.1 ho
    cases ho
    rw [flatten_cons, map_append, flatMap_cons, names_of_variables hes, ih]

/-- Variables with distinct names, one element for each: the scan's test picks one object for
    each variable. -/
theorem covered_once {tc : TestCase}
    (htc : kTestTestCase objs vars = .ok tc) (h : Lists objs vars tc)
    (hn : (vars.map ConcolicVariable.name).Nodup) :
    ∀ v ∈ vars, ∃ o, objs.filter (fun o => Covers o v) = [o] := by
  intro v hv
  obtain ⟨es, hperm, hdesc⟩ := h
  have hnames := names_of_ok htc
  have hes : es.map TestCaseElement.name = vars.map ConcolicVariable.name := by
    clear hn hperm htc hnames hv
    induction hdesc with
    | nil => rfl
    | cons hd _ ih => rw [map_cons, map_cons, ih, hd.name]
  -- the names of the test case, variable by variable
  have hall : (vars.map ConcolicVariable.name).Perm
      (vars.flatMap fun v => (objs.filter fun o => Covers o v).map fun _ => v.name) := by
    rw [← hes]
    refine (hperm.map TestCaseElement.name).trans ?_
    rw [hnames]
    exact flatMap_filter_perm Covers (fun _ v => v.name) objs vars
  have hnodup := hall.nodup_iff.1 hn
  have hsub : ((objs.filter fun o => Covers o v).map fun _ => v.name).Nodup :=
    (nodup_flatMap.1 hnodup).1 v hv
  cases hfilter : objs.filter (fun o => Covers o v) with
  | nil =>
    have hm := hall.mem_iff.1 (mem_map_of_mem hv)
    obtain ⟨u, hu, hmu⟩ := mem_flatMap.1 hm
    obtain ⟨o, ho, e⟩ := mem_map.1 hmu
    rw [inj_on_of_nodup_map hn hu hv e, hfilter] at ho
    cases ho
  | cons o os =>
    rw [hfilter] at hsub
    cases os with
    | nil => exact ⟨o, rfl⟩
    | cons o' os =>
      exact absurd (mem_cons_self) (nodup_cons.1 hsub).1

section Top

variable {objs : List KTestObject} {vars : List ConcolicVariable} (h : Layout objs vars)

variable {v : ConcolicVariable}
include h

theorem Layout.mem_of_inside (hv : v ∈ vars) :
    ∃ o ∈ objs, Inside o v ∧ ∀ o' ∈ objs, Inside o' v → o' = o := by
  obtain ⟨o, ho⟩ := h.inOne v hv
  have hmem : o ∈ objs.filter fun o => Inside o v := by rw [ho]; exact mem_singleton_self _
  refine ⟨o, (mem_filter.1 hmem).1, of_decide_eq_true (mem_filter.1 hmem).2, ?_⟩
  intro o' ho' hin
  have hmem' : o' ∈ objs.filter fun o => Inside o v := mem_filter.2 ⟨ho', decide_eq_true hin⟩
  rw [ho] at hmem'
  exact mem_singleton.1 hmem'

/-- A variable in an object that ends at the end of the address space ends there too, if the
    scan's test finds the variable anywhere. -/
theorem Layout.stop_eq {o o₁ : KTestObject} (ho : o ∈ objs) (htop : o.stop = 2 ^ 64)
    (hv : v ∈ vars) (hin : Inside o v) (ho₁ : o₁ ∈ objs) (hc : Covers o₁ v) : v.stop = 2 ^ 64 := by
  have hle := hin.2
  refine Classical.byContradiction fun hne => ?_
  have hlt : v.stop < 2 ^ 64 := by omega
  obtain ⟨h₁, h₂⟩ := (Covers.iff_toNat hin).1 hc
  rw [Nat.mod_eq_of_lt hlt] at h₂
  have ho₁le := o₁.stop_le
  have hnum := o.numBytes.toNat_lt
  have hstart := hin.1
  have hvs : v.guestAddr.toNat ≤ v.stop := Nat.le_add_right _ _
  unfold KTestObject.stop at htop
  by_cases htop₁ : o₁.stop = 2 ^ 64
  · omega
  · rw [Nat.mod_eq_of_lt (by omega)] at h₂
    obtain ⟨o₂, -, -, hall⟩ := h.mem_of_inside hv
    have e : o₁ = o := (hall o₁ ho₁ ⟨h₁, h₂⟩).trans (hall o ho hin).symm
    subst e
    exact htop₁ htop

/-- Another object starts below a variable that ends at the end of the address space. -/
theorem Layout.address_le {o o' : KTestObject} (ho : o ∈ objs) (ho' : o' ∈ objs)
    (htop : o.stop = 2 ^ 64) (hin : Inside o v) (hd : ObjectsApart o o') :
    o'.address.toNat ≤ v.guestAddr.toNat := by
  refine Classical.byContradiction fun hlt => ?_
  have haddr := o'.address.toNat_lt
  have hstart := hin.1
  by_cases hnum : o'.numBytes.toNat = 0
  · -- an empty object holds a variable that is also in `o`
    obtain ⟨u, hu, hu'⟩ := h.covered o' ho'
    obtain ⟨h₁, h₂⟩ := hu'
    have hu₂ := h₂
    unfold stop KTestObject.stop at h₂
    obtain ⟨o₂, -, -, hall⟩ := h.mem_of_inside hu
    have hino : Inside o u := ⟨by omega, by unfold stop; omega⟩
    have e : o' = o := (hall o' ho' ⟨h₁, hu₂⟩).trans (hall o ho hino).symm
    subst e
    unfold KTestObject.stop at htop
    omega
  · refine hd o'.address.toNat ⟨by omega, by omega, le_rfl, ?_⟩
    unfold KTestObject.stop
    omega

/-- If the scan's test picks one object for each variable, nothing ends at the end of the address
    space but a single variable in a single object. -/
theorem Layout.single {o : KTestObject} (ho : o ∈ objs) (htop : o.stop = 2 ^ 64)
    (honce : ∀ v ∈ vars, ∃ o, objs.filter (fun o => Covers o v) = [o]) :
    ∃ v, objs = [o] ∧ vars = [v] ∧ v.stop = 2 ^ 64 := by
  have hends : ∀ v ∈ vars, Inside o v → v.stop = 2 ^ 64 := by
    intro v hv hin
    obtain ⟨o₁, ho₁⟩ := honce v hv
    have hmem : o₁ ∈ objs.filter fun o => Covers o v := by rw [ho₁]; exact mem_singleton_self _
    exact h.stop_eq ho htop hv hin (mem_filter.1 hmem).1 (of_decide_eq_true (mem_filter.1 hmem).2)
  obtain ⟨v, hv, hin⟩ := h.covered o ho
  have hstop := hends v hv hin
  -- the test also picks every other object for `v`, whose end wraps to zero
  have hobjs : objs = [o] := by
    have hall : ∀ o' ∈ objs, Covers o' v := by
      intro o' ho'
      rw [Covers.iff_toNat hin, hstop]
      refine ⟨?_, by omega⟩
      by_cases e : o' = o
      · rw [e]
        exact hin.1
      · exact h.address_le ho ho' htop hin (h.objsApart.forall ho ho' fun e' => e e'.symm)
    obtain ⟨o₁, ho₁⟩ := honce v hv
    rw [filter_eq_self.2 fun o' ho' => decide_eq_true (hall o' ho')] at ho₁
    rw [ho₁] at ho ⊢
    rw [mem_singleton.1 ho]
  have hinside : ∀ u ∈ vars, Inside o u := by
    intro u hu
    obtain ⟨o₁, ho₁, hin₁, -⟩ := h.mem_of_inside hu
    rw [hobjs] at ho₁
    rw [← mem_singleton.1 ho₁]
    exact hin₁
  -- two variables cannot both have the last byte
  have hlast : ∀ u ∈ vars, u.guestAddr.toNat ≤ 2 ^ 64 - 1 ∧ 2 ^ 64 - 1 < u.stop := by
    intro u hu
    have hlt := u.guestAddr.toNat_lt
    rw [hends u hu (hinside u hu)]
    omega
  refine ⟨v, hobjs, ?_, hstop⟩
  have hapart := h.varsApart
  match vars, hv, hlast, hapart with
  | [u], hv, _, _ => rw [mem_singleton.1 hv]
  | u :: u' :: us, _, hlast, hapart =>
    have hu := hlast u (.head _)
    have hu' := hlast u' (.tail _ (.head _))
    exact absurd ⟨hu.1, hu.2, hu'.1, hu'.2⟩
      ((pairwise_cons.1 hapart).1 u' (.head _) (2 ^ 64 - 1))

end Top

theorem exists_describes {es : List TestCaseElement} (h : List.Forall₂ (Describes objs) vars es) :
    ∀ v ∈ vars, ∃ e, Describes objs v e := by
  induction h with
  | nil => exact forall_mem_nil _
  | cons hd _ ih =>
    intro v hv
    rcases mem_cons.1 hv with rfl | hv
    · exact ⟨_, hd⟩
    · exact ih v hv

theorem fwriteItem_isSome_iff (bytes : Bytes) : (fwriteItem bytes).isSome ↔ bytes ≠ [] := by
  unfold fwriteItem
  split <;> simp_all

theorem writeString_isSome_iff (value : Bytes) : (writeString value).isSome ↔ value ≠ [] := by
  rw [← fwriteItem_isSome_iff, writeString]
  cases fwriteItem value <;> simp

theorem writeObject_isSome_iff (o : KTestObject) :
    (writeObject o).isSome ↔ o.name ≠ [] ∧ o.bytes ≠ [] := by
  rw [← writeString_isSome_iff, ← fwriteItem_isSome_iff, writeObject]
  cases writeString o.name <;> cases fwriteItem o.bytes <;> simp

/-- The .ktest file is written exactly if nothing in it is empty. -/
theorem ktestFile_isSome_iff (b : KTest) : (ktestFile b).isSome ↔ Writable b := by
  have hargs : (b.args.mapM writeString).isSome ↔ ∀ a ∈ b.args, a ≠ [] := by
    rw [mapM_isSome_iff]
    exact forall_congr' fun a => imp_congr_right fun _ => writeString_isSome_iff a
  have hobjs : (b.objects.mapM writeObject).isSome ↔
      ∀ o ∈ b.objects, o.name ≠ [] ∧ o.bytes ≠ [] := by
    rw [mapM_isSome_iff]
    exact forall_congr' fun o => imp_congr_right fun _ => writeObject_isSome_iff o
  rw [Writable, ← hargs, ← hobjs, ktestFile]
  cases b.args.mapM writeString <;> cases b.objects.mapM writeObject <;> simp

/-- **The test case is complete where the file can be written and no end wraps**, and for
    variables with distinct names only there. -/
theorem complete_iff_fits (b : KTest) (vars : List ConcolicVariable) (h : Layout b.objects vars) :
    (Writable b ∧ Fits b.objects vars → Complete b vars) ∧
      ((vars.map ConcolicVariable.name).Nodup → Complete b vars →
        Writable b ∧ Fits b.objects vars) := by
  constructor
  · intro ⟨hw, hf⟩
    obtain ⟨tc, htc, hl⟩ := lists_of_fits h hf
    obtain ⟨bytes, hb⟩ := Option.isSome_iff_exists.1 ((ktestFile_isSome_iff b).2 hw)
    exact ⟨tc, by rw [kTestToFile, hb]; exact htc, hl⟩
  · intro hn ⟨tc, htc, hl⟩
    unfold kTestToFile at htc
    cases hb : ktestFile b with
    | none => rw [hb] at htc; cases htc
    | some bytes =>
      rw [hb] at htc
      refine ⟨(ktestFile_isSome_iff b).1 (by rw [hb]; rfl), fun v hv => ?_, ?_⟩
      · obtain ⟨es, -, hdesc⟩ := hl
        obtain ⟨e, hd⟩ := exists_describes hdesc v hv
        have hlt := e.nameSize.toNat_lt
        rw [hd.sized.nameSize, hd.name] at hlt
        exact hlt
      · by_cases htop : ∀ o ∈ b.objects, o.stop < 2 ^ 64
        · exact .inl htop
        · obtain ⟨o, ho⟩ := Classical.not_forall.1 htop
          obtain ⟨ho, hge⟩ := Classical.not_imp.1 ho
          have hle := o.stop_le
          obtain ⟨v, hobjs, hvars, hstop⟩ :=
            h.single ho (by omega) (covered_once htc hl hn)
          exact .inr ⟨o, v, hobjs, hvars, hstop⟩

/-- Two variables in one object, in the other order. -/
theorem complete_iff_fits_two : Complete ⟨[], [⟨[111], 16, 3, [1, 2, 3], rfl, by decide⟩]⟩
      [⟨[98], [], 1, 18, 0⟩, ⟨[97], [], 2, 16, 0⟩] :=
  (complete_iff_fits ⟨[], [⟨[111], 16, 3, [1, 2, 3], rfl, by decide⟩]⟩ _
    { objsApart := pairwise_singleton _ _
      varsApart := by
        refine pairwise_pair.2 fun a ha => ?_
        have h₁ : 18 ≤ a := ha.1
        have h₂ : a < 18 := ha.2.2.2
        omega
      inOne := by
        intro v hv
        refine ⟨_, filter_eq_self.2 fun o ho => ?_⟩
        rw [mem_singleton.1 ho]
        revert v
        decide
      covered := by
        intro o ho
        rw [mem_singleton.1 ho]
        exact ⟨_, .head _, by decide⟩ }).1 (by
    refine ⟨⟨by decide, fun o ho => ?_⟩, by decide, .inl fun o ho => ?_⟩
    · rw [mem_singleton.1 ho]
      decide
    · rw [mem_singleton.1 ho]
      decide)

/-- An object that ends at the end of the address space, and a variable in it that does not: the
    object's end wraps to zero, and the assertion fails. -/
theorem kTestToFile_top : Layout [⟨[111], 18446744073709551614, 2, [1, 2], rfl, by decide⟩]
        [⟨[97], [], 1, 18446744073709551614, 0⟩] ∧
      kTestToFile ⟨[], [⟨[111], 18446744073709551614, 2, [1, 2], rfl, by decide⟩]⟩
          [⟨[97], [], 1, 18446744073709551614, 0⟩] =
        .error (.assertion
          "found && \"no concolic memory found associated with KTestObject\"") := by
  refine ⟨⟨pairwise_singleton _ _, pairwise_singleton _ _, fun v hv => ?_,
    fun o ho => ?_⟩, by decide +kernel⟩
  · refine ⟨_, filter_eq_self.2 fun o ho => ?_⟩
    rw [mem_singleton.1 hv, mem_singleton.1 ho]
    decide +kernel
  · rw [mem_singleton.1 ho]
    exact ⟨_, mem_singleton_self _, by decide +kernel⟩

end Crete.Dump
