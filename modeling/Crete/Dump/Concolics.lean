/-
  File:      Crete/Dump/Concolics.lean
  Subject:   The concolic variables of a dump: how the recorder writes them
             (qemu-1.0/runtime-dump/runtime-dump.cpp) and how the replay reads them
             (klee/lib/bct-replay/qemu_rt_info.cpp).

  The recorder writes a line of text for each object, twice; the replay drops repeated lines,
  takes the lines apart at white space, and looks up the values by name in the test case.

  * `readFields_line` -- a line with a name without white space is taken apart as it was written.
  * **`survives_iff`** -- the objects come back exactly if no name has white space in it and the
    test case is `Readable`.
-/
import Crete.Dump.KTest
import Crete.Lib.Text

namespace Crete.Dump

open Crete.Lib Crete.Lib.IStream List

/-! ## 1. The recorder -/

/-- `struct ConcolicMemoryObject`: what a make_concolic call leaves. -/
structure ConcolicMemoryObject where
  name : Bytes
  nameAddr : UInt64
  dataGuestAddr : UInt64
  dataHostAddr : UInt64
  dataSize : UInt64
  deriving DecidableEq, Repr

/-- The fields of an object's line behind its name. -/
def fields (nameAddr : UInt64) (value : Bytes) (size guestAddr hostAddr : UInt64) :
    Bytes :=
  32 :: (decimal nameAddr ++ 32 :: (value ++ 32 :: (decimal size ++ 32 :: (decimal guestAddr ++
    32 :: decimal hostAddr))))

/-- `dump_memory_object`, in the format for symbolic objects and without its line end. -/
def memoryObjectLine (o : ConcolicMemoryObject) : Bytes :=
  o.name ++ fields o.nameAddr (bytesOf "0") o.dataSize o.dataGuestAddr o.dataHostAddr

/-- `dumpConcolicData`: what it adds to `m_symbMemos`. -/
def dumpConcolicData (objs : List ConcolicMemoryObject) : List Bytes :=
  objs.map fun o => memoryObjectLine o ++ [10]

/-- `m_symbMemos` when the files are written: the objects are dumped by the instruction that ends
    an iteration, and again by `writeRtEnvToFile`. -/
def symbMemos (objs : List ConcolicMemoryObject) : List Bytes :=
  dumpConcolicData objs ++ dumpConcolicData objs

/-- `writeSymbolicMemo`: no file for no objects. -/
def writeSymbolicMemo (memos : List Bytes) : Option Bytes :=
  if memos = [] then none else some memos.flatten

/-! ## 2. The replay -/

/-- How `init_concolics` can end other than by returning. -/
inductive ConcolicsStop where
  | read (e : ReadError)
  | assertion (expr : String)
  deriving DecidableEq, Repr

/-- `check_file_symbolics`: the file without the lines that were there before. -/
def checkFileSymbolics (file : Option Bytes) : Bytes :=
  (firsts id (lines (file.getD []))).flatMap fun l => l ++ [10]

/-- The variables of `init_concolics` that a line is read into. They are declared before the loop,
    so what is not read keeps what the line before left. -/
structure Entry where
  name : Bytes
  nameAddr : UInt64
  fakeVal : UInt64
  dataSize : UInt64
  guestAddr : UInt64
  hostAddr : UInt64
  deriving DecidableEq, Repr

/-- `data_size` assigned. -/
def Entry.setSize (e : Entry) (size : UInt64) : Entry := { e with dataSize := size }

/-- The extractions from a line. -/
def readFields (old : Entry) (line : Bytes) : Entry :=
  let (name, s) := extractWord old.name ⟨line, false⟩
  let (nameAddr, s) := extractUInt64 old.nameAddr s
  let (fakeVal, s) := extractUInt64 old.fakeVal s
  let (dataSize, s) := extractUInt64 old.dataSize s
  let (guestAddr, s) := extractUInt64 old.guestAddr s
  let (hostAddr, _) := extractUInt64 old.hostAddr s
  ⟨name, nameAddr, fakeVal, dataSize, guestAddr, hostAddr⟩

/-- `map_concrete_value.find(name)`: the map has the first element of each name. -/
def findValue (es : List TestCaseElement) (name : Bytes) : Option (UInt64 × Bytes) :=
  (es.find? fun e => e.name = name).map fun e => (UInt64.ofNat e.dataSize.toNat, e.data)

def valueNotFound : ConcolicsStop :=
  .assertion ("map_it != map_concrete_value.end() && " ++
    "\"concrete value for a concolic variable is not found!\\n\"")

/-- The loop over the lines. Size and value are the test case's. -/
def collect (es : List TestCaseElement) : Entry → List Bytes →
    Except ConcolicsStop (List ConcolicVariable)
  | _, [] => .ok []
  | old, line :: rest =>
    match findValue es (readFields old line).name with
    | none => .error valueNotFound
    | some (size, value) => do
        let later ← collect es ((readFields old line).setSize size) rest
        return ⟨(readFields old line).name, value, size, (readFields old line).guestAddr,
          (readFields old line).hostAddr⟩ :: later

/-- `init_concolics`: `u` and `old` are what its variables hold before they are read into. -/
def initConcolics (u : Uninit) (old : Entry) (symbolics : Option Bytes)
    (inputs : Bytes) : Except ConcolicsStop (List ConcolicVariable) :=
  match (readTestCase u (ofBytes inputs)).map Prod.fst with
  | .error e => .error (.read e)
  | .ok tc => do
      ensure ((firsts TestCaseElement.name tc.elems).length = tc.elems.length)
        (.assertion "map_concrete_value.size() == tc_elements.size()")
      collect tc.elems old (lines (checkFileSymbolics symbolics))

/-! ## 3. Lines -/

theorem endsWord_space (rest : Bytes) : EndsWord (32 :: rest) := by
  intro b hb
  cases hb
  rfl

theorem isSpace_of_mem_blank : ∀ b ∈ ([32] : Bytes), isSpace b = true := by
  intro b hb
  rw [mem_singleton.1 hb]
  rfl

/-- A number behind a blank. -/
theorem extractUInt64_blank (old n : UInt64) {rest : Bytes} (h : EndsWord rest) :
    extractUInt64 old ⟨32 :: (decimal n ++ rest), false⟩ = (n, ⟨rest, false⟩) :=
  extractUInt64_at old n isSpace_of_mem_blank h

/-- **A line is taken apart as it was written**, if its name is a word. -/
theorem readFields_line (old : Entry) {o : ConcolicMemoryObject} (h : IsWord o.name) :
    readFields old (memoryObjectLine o) =
      ⟨o.name, o.nameAddr, 0, o.dataSize, o.dataGuestAddr, o.dataHostAddr⟩ := by
  have hname : ∀ rest, extractWord old.name ⟨o.name ++ 32 :: rest, false⟩ =
      (o.name, ⟨32 :: rest, false⟩) := fun rest =>
    extractWord_at old.name (forall_mem_nil _) h (endsWord_space rest)
  have hnil : EndsWord [] := fun b hb => by cases hb
  have hend := extractUInt64_blank old.hostAddr o.dataHostAddr hnil
  rw [append_nil] at hend
  -- the value is the text `0`, which is also what is written for the number 0
  have hzero : bytesOf "0" = decimal 0 := by decide
  simp only [readFields, memoryObjectLine, fields, hzero, hname,
    extractUInt64_blank _ _ (endsWord_space _), hend]

theorem newline_not_mem_line {o : ConcolicMemoryObject} (h : IsWord o.name) :
    10 ∉ memoryObjectLine o := by
  have hdec : ∀ n : UInt64, (10 : UInt8) ∉ decimal n := by
    intro n hm
    have := (isWord_decimal n).noSpace 10 hm
    cases this
  have hname : (10 : UInt8) ∉ o.name := by
    intro hm
    have := h.noSpace 10 hm
    cases this
  have hzero : (10 : UInt8) ∉ bytesOf "0" := by decide
  simp [memoryObjectLine, fields, hdec, hname, hzero]

/-- **The lines that are left of the file** are those of the objects, in order. -/
theorem lines_checkFileSymbolics {objs : List ConcolicMemoryObject}
    (hw : ∀ o ∈ objs, IsWord o.name) (hn : (objs.map (·.name)).Nodup) :
    lines (checkFileSymbolics (writeSymbolicMemo (symbMemos objs))) =
      objs.map memoryObjectLine := by
  have hfile : (writeSymbolicMemo (symbMemos objs)).getD [] =
      (objs.map memoryObjectLine ++ objs.map memoryObjectLine).flatMap fun l => l ++ [10] := by
    have hflat : (symbMemos objs).flatten =
        (objs.map memoryObjectLine ++ objs.map memoryObjectLine).flatMap fun l => l ++ [10] := by
      rw [flatMap_append, flatMap_map, symbMemos, flatten_append, dumpConcolicData, ← flatMap_def]
    unfold writeSymbolicMemo
    split
    · next e =>
        rw [← hflat, e]
        rfl
    · exact hflat
  have hline : ∀ l ∈ objs.map memoryObjectLine, 10 ∉ l := by
    intro l hl
    obtain ⟨o, ho, rfl⟩ := mem_map.1 hl
    exact newline_not_mem_line (hw o ho)
  have hdistinct : ((objs.map memoryObjectLine).map id).Nodup := by
    rw [map_id]
    refine Nodup.of_map (fun l => (readFields ⟨[], 0, 0, 0, 0, 0⟩ l).name) ?_
    rw [map_map]
    have hnames : objs.map ((fun l => (readFields ⟨[], 0, 0, 0, 0, 0⟩ l).name) ∘ memoryObjectLine) =
        objs.map (·.name) :=
      map_congr_left fun o ho => congrArg Entry.name (readFields_line _ (hw o ho))
    rw [hnames]
    exact hn
  have htwice : ∀ l ∈ objs.map memoryObjectLine ++ objs.map memoryObjectLine, 10 ∉ l := by
    intro l hl
    rcases mem_append.1 hl with hl | hl
    · exact hline l hl
    · exact hline l hl
  rw [checkFileSymbolics, hfile, lines_flatMap htwice,
    firsts_append_of_known id fun l hl => ⟨l, hl, rfl⟩, firsts_of_nodup id hdistinct,
    lines_flatMap hline]

/-! ## 5. The variables -/

/-- The variable that stands for an object under a test case. -/
structure Stands (tc : TestCase) (o : ConcolicMemoryObject) (v : ConcolicVariable) : Prop where
  name : v.name = o.name
  size : v.dataSize = o.dataSize
  guestAddr : v.guestAddr = o.dataGuestAddr
  hostAddr : v.hostAddr = o.dataHostAddr
  value : ∃ e ∈ tc.elems, e.name = o.name ∧ v.concreteValue = e.data

theorem Stands.of_mem {tc : TestCase} {objs : List ConcolicMemoryObject}
    {vs : List ConcolicVariable} (h : List.Forall₂ (Stands tc) objs vs) :
    ∀ o ∈ objs, ∃ v ∈ vs, Stands tc o v := by
  induction h with
  | nil => exact forall_mem_nil _
  | cons hv _ ih =>
    intro o ho
    rcases mem_cons.1 ho with rfl | ho
    · exact ⟨_, .head _, hv⟩
    · obtain ⟨v, hm, hstands⟩ := ih o ho
      exact ⟨v, mem_cons_of_mem _ hm, hstands⟩

/-- The names that are read have no white space. -/
theorem collect_noSpace {es : List TestCaseElement} : ∀ {ls : List Bytes} (old : Entry)
    {vs : List ConcolicVariable}, (∀ b ∈ old.name, isSpace b = false) →
    collect es old ls = .ok vs → ∀ v ∈ vs, ∀ b ∈ v.name, isSpace b = false
  | [], _, _, _, h => by
    cases h
    exact forall_mem_nil _
  | line :: ls, old, vs, ho, h => by
    rw [collect] at h
    split at h
    · cases h
    · next size value _ =>
        obtain ⟨later, hlater, h⟩ := bind_eq_ok.1 h
        cases h
        have hname : ∀ b ∈ (readFields old line).name, isSpace b = false :=
          extractWord_noSpace ho ⟨line, false⟩
        intro v hv
        rcases mem_cons.1 hv with rfl | hv
        · exact hname
        · exact collect_noSpace ((readFields old line).setSize size) hname hlater v hv

/-- **The loop over the objects' lines.** -/
theorem collect_lines {tc : TestCase} (hs : tc.Sized) : ∀ {objs : List ConcolicMemoryObject}
    (old : Entry), (∀ o ∈ objs, IsWord o.name) →
    (∀ o ∈ objs, ∃ e ∈ tc.elems, e.name = o.name) →
    (∀ o ∈ objs, ∀ e ∈ tc.elems, e.name = o.name → e.data.length = o.dataSize.toNat) →
    ∃ vs, collect tc.elems old (objs.map memoryObjectLine) = .ok vs ∧
      List.Forall₂ (Stands tc) objs vs
  | [], _, _, _, _ => ⟨[], rfl, .nil⟩
  | o :: objs, old, hw, hfound, hsize => by
    obtain ⟨e, he, hname⟩ := hfound o (.head _)
    have hsome : (tc.elems.find? fun e => e.name = o.name).isSome := by
      rw [find?_isSome]
      exact ⟨e, he, by simpa using hname⟩
    obtain ⟨e', hfind⟩ := Option.isSome_iff_exists.1 hsome
    have he' : e' ∈ tc.elems := mem_of_find?_eq_some hfind
    have hname' : e'.name = o.name := by simpa using find?_some hfind
    have hdata : UInt64.ofNat e'.dataSize.toNat = o.dataSize := by
      rw [(hs e' he').dataSize, hsize o (.head _) e' he' hname', UInt64.ofNat_toNat]
    have hvalue : findValue tc.elems o.name = some (o.dataSize, e'.data) := by
      rw [findValue, hfind, Option.map_some, hdata]
    obtain ⟨vs, hvs, hall⟩ := collect_lines hs
      ⟨o.name, o.nameAddr, 0, o.dataSize, o.dataGuestAddr, o.dataHostAddr⟩
      (forall_mem_cons.1 hw).2
      (forall_mem_cons.1 hfound).2
      (forall_mem_cons.1 hsize).2
    refine ⟨⟨o.name, e'.data, o.dataSize, o.dataGuestAddr, o.dataHostAddr⟩ :: vs, ?_,
      .cons ⟨rfl, rfl, rfl, rfl, e', he', hname', rfl⟩ hall⟩
    rw [map_cons, collect, readFields_line old (hw o (.head _)), hvalue]
    show (collect tc.elems ⟨o.name, o.nameAddr, 0, o.dataSize, o.dataGuestAddr,
      o.dataHostAddr⟩ (objs.map memoryObjectLine) >>= _) = _
    rw [hvs]
    rfl

/-- **The concolic variables come back exactly if no name has white space in it and the test case
    is `Readable`.** For make_concolic calls with distinct names that are not empty, and a test
    case with one element of the right size for each name. -/
theorem survives_iff (u : Uninit) (old : Entry) (hold : old.name = [])
    (objs : List ConcolicMemoryObject) (tc : TestCase) (hs : tc.Sized)
    (hn : (objs.map (·.name)).Nodup) (hne : ∀ o ∈ objs, o.name ≠ [])
    (hp : (tc.elems.map (·.name)).Perm (objs.map (·.name)))
    (hsize : ∀ o ∈ objs, ∀ e ∈ tc.elems, e.name = o.name → e.data.length = o.dataSize.toNat) :
    (∃ vs, initConcolics u old (writeSymbolicMemo (symbMemos objs)) tc.write = .ok vs ∧
        List.Forall₂ (Stands tc) objs vs) ↔
      (∀ o ∈ objs, ∀ b ∈ o.name, isSpace b = false) ∧ Readable tc := by
  constructor
  · rintro ⟨vs, hinit, hall⟩
    unfold initConcolics at hinit
    split at hinit
    · cases hinit
    · next tc' hread =>
        obtain ⟨rfl, hr⟩ := (readTestCase_eq_ok_iff u hs).1 hread
        obtain ⟨-, hcollect⟩ := ensure_bind_eq_ok.1 hinit
        have hnames := collect_noSpace old (by rw [hold]; simp) hcollect
        refine ⟨fun o ho => ?_, hr⟩
        obtain ⟨v, hv, hstands⟩ := Stands.of_mem hall o ho
        rw [← hstands.name]
        exact hnames v hv
  · rintro ⟨hw, hr⟩
    have hword : ∀ o ∈ objs, IsWord o.name := fun o ho => ⟨hne o ho, hw o ho⟩
    have hfound : ∀ o ∈ objs, ∃ e ∈ tc.elems, e.name = o.name := by
      intro o ho
      exact mem_map.1 (hp.mem_iff.2 (mem_map_of_mem ho))
    obtain ⟨vs, hvs, hall⟩ := collect_lines hs old hword hfound hsize
    refine ⟨vs, ?_, hall⟩
    have hread := (readTestCase_eq_ok_iff u hs).2 ⟨rfl, hr⟩
    have hdistinct : (tc.elems.map TestCaseElement.name).Nodup := hp.nodup_iff.2 hn
    simp only [initConcolics, hread, ensure_bind, firsts_of_nodup _ hdistinct, if_true,
      lines_checkFileSymbolics hword hn]
    exact hvs

/-- Two objects, and a test case with their values the other way round. -/
theorem survives_iff_two : ∃ vs, initConcolics ⟨0, 0, 0⟩ ⟨[], 7, 7, 7, 7, 7⟩
        (writeSymbolicMemo (symbMemos [⟨bytesOf "arg,x", 4096, 8192, 65536, 1⟩,
          ⟨bytesOf "f", 0, 18446744073709551615, 70000, 2⟩]))
        (TestCase.mk [⟨1, bytesOf "f", 2, [5, 6]⟩, ⟨5, bytesOf "arg,x", 1, [9]⟩]).write = .ok vs ∧
      List.Forall₂ (Stands ⟨[⟨1, bytesOf "f", 2, [5, 6]⟩, ⟨5, bytesOf "arg,x", 1, [9]⟩]⟩)
        [⟨bytesOf "arg,x", 4096, 8192, 65536, 1⟩, ⟨bytesOf "f", 0, 18446744073709551615, 70000, 2⟩]
        vs :=
  (survives_iff ⟨0, 0, 0⟩ ⟨[], 7, 7, 7, 7, 7⟩ rfl
    [⟨bytesOf "arg,x", 4096, 8192, 65536, 1⟩, ⟨bytesOf "f", 0, 18446744073709551615, 70000, 2⟩]
    ⟨[⟨1, bytesOf "f", 2, [5, 6]⟩, ⟨5, bytesOf "arg,x", 1, [9]⟩]⟩
    (by
      intro e he
      simp only [mem_cons, not_mem_nil, or_false] at he
      rcases he with rfl | rfl <;> exact ⟨by decide, by decide⟩)
    (by decide) (by decide) (by decide) (by decide)).2
    ⟨by
      intro o ho
      simp only [mem_cons, not_mem_nil, or_false] at ho
      have hx : (bytesOf "arg,x").all (fun b => !isSpace b) = true := by decide
      have hf : (bytesOf "f").all (fun b => !isSpace b) = true := by decide
      rcases ho with rfl | rfl
      · simpa using hx
      · simpa using hf,
    by simp, by decide, by decide, by decide⟩

/-- A name with a blank: the first word of it is looked up, and is not found. -/
theorem initConcolics_blank : initConcolics ⟨0, 0, 0⟩ ⟨[], 0, 0, 0, 0, 0⟩
      (writeSymbolicMemo (symbMemos [⟨bytesOf "a b", 4096, 8192, 65536, 1⟩]))
      (TestCase.mk [⟨3, bytesOf "a b", 1, [9]⟩]).write = .error valueNotFound := by
  decide +kernel

end Crete.Dump
