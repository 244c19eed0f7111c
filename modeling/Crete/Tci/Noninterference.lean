/-
  File:      Crete/Tci/Noninterference.lean
  Subject:   The analysis is sound: what is not marked symbolic does not depend on what is.

  Two runs of one program start in states that differ in marked places only, and follow one path:
  the same operations, with the same addresses of memory accesses. Then they keep differing in
  marked places only, and a block that is not marked moved the same values in both.

  That needs two things of the guest's addresses, because the analyzer marks guest memory by
  virtual addresses of 64 bits (`Observed.OneToOne`, `Observed.Fits`): what is accessed has no other
  address throughout the run, and no access runs past the end of a 32 bit address space.

  * `Agree` -- the relation between the two states; `Inside` -- the same within an operation.
  * **`run_agree`** -- whole runs.
-/
import Crete.Tci.Interp

namespace Crete.Tci

open Crete.Lib Analyzer Function

/-! ## 1. The relation -/

/-- Each address of an access to guest memory is one byte, its own, whatever the page tables. -/
def Observed.OneToOne (env : Env) : Observed → Prop
  | .access (.guest addr n) => ∀ j < n, ∀ k m k' m' a, env.target.wrap a = a →
    (env.translate k m (addr + UInt64.ofNat j) = env.translate k' m' a ↔ addr + UInt64.ofNat j = a)
  | _ => True

/-- An access to guest memory does not run past the end of a 32 bit address space. -/
def Observed.Fits (target : TargetLong) : Observed → Prop
  | .access (.guest addr n) => target = .bits32 → addr.toNat + n ≤ 2 ^ 32
  | _ => True

instance (target : TargetLong) (o : Observed) : Decidable (o.Fits target) := by
  unfold Observed.Fits
  split <;> infer_instance

/-- **The two states agree on all that is not marked**, and have the same marks. -/
structure SameBut (env : Env) (s s' : State) : Prop where
  analyzer : s.analyzer = s'.analyzer
  tables : s.tables = s'.tables
  next : s.next = s'.next
  reg : ∀ i, s.analyzer.reg i = false → s.reg i = s'.reg i
  host : ∀ p, s.analyzer.hostMem p = false → s.host p = s'.host p
  guest : ∀ k m a, env.target.wrap a = a → s.analyzer.guestMem a = false →
    s.guest (env.translate k m a) = s'.guest (env.translate k m a)

/-- Also, a block that is not marked has moved the same values. -/
structure Agree (env : Env) (s s' : State) : Prop extends SameBut env s s' where
  moved : s.analyzer.block = false → s.moved = s'.moved

/-- Within an operation: both are at one place of the byte code, and `φ` holds as long as nothing
    symbolic was read. -/
structure Inside (env : Env) (φ : Prop) (s s' : State) : Prop extends Agree env s s' where
  tbPtr : s.tbPtr = s'.tbPtr
  flagged : s.analyzer.readWasSymbolic = true → s.analyzer.block = true
  known : s.analyzer.readWasSymbolic = false → φ

variable {env : Env} {T : List Observed} {φ ψ : Prop} {s s' : State}

theorem Inside.mono (h : Inside env φ s s') (hφ : φ → ψ) : Inside env ψ s s' :=
  { h with known := fun hr => hφ (h.known hr) }

/-- As long as the block is not marked, nothing symbolic was read. -/
theorem Inside.of_block (h : Inside env φ s s') (hb : s.analyzer.block = false) : φ := by
  refine h.known (Bool.eq_false_iff.2 fun hr => ?_)
  rw [h.flagged hr] at hb
  cases hb

/-! ## 2. Operands -/

variable {v v' : UInt64} {P : State → State → Prop}

section Judgements

variable (env : Env) (T : List Observed) (φ : Prop) {α : Type} (m : Exec α)

/-- Both runs get the same. -/
abbrev Fetches : Prop :=
  Coupled State.path T (Inside env φ) m m fun v v' s s' => v = v' ∧ Inside env φ s s'

/-- Both runs get the same, unless something symbolic was read. -/
abbrev Reads : Prop :=
  Coupled State.path T (Inside env φ) m m fun v v' => Inside env (φ ∧ v = v')

/-- An operation ends, and the states agree. -/
abbrev Completes : Prop := Coupled State.path T (Inside env φ) m m fun _ _ => Agree env

end Judgements

/-- A step of `tb_ptr` over the byte code. -/
theorem Inside.advance (h : Inside env φ s s') (d : UInt64) :
    Inside env φ { s with tbPtr := s.tbPtr + d } { s' with tbPtr := s'.tbPtr + d } :=
  { h with
    tbPtr := by
      show s.tbPtr + d = s'.tbPtr + d
      rw [h.tbPtr] }

theorem readByte_coupled : Fetches env T φ (readByte env) := by
  refine coupled_modifyGet (fun _ => rfl) (fun _ => rfl) fun s s' h => ⟨?_, h.advance 1⟩
  show env.code s.tbPtr = env.code s'.tbPtr
  rw [h.tbPtr]

theorem readI_coupled (n : Nat) : Fetches env T φ (readI env n) := by
  refine coupled_modifyGet (fun _ => rfl) (fun _ => rfl) fun s s' h => ⟨?_, h.advance _⟩
  show word (fun j => env.code (s.tbPtr + UInt64.ofNat j)) n = _
  rw [h.tbPtr]

theorem regOf_coupled (index : UInt8) :
    Coupled State.path T P (liftM (regOf index) : Exec Reg) (liftM (regOf index))
      fun i i' s s' => i = i' ∧ regOf index = .ok i ∧ P s s' := by
  refine coupled_lift fun s s' i i' hp hi hi' => ?_
  exact ⟨Except.ok.inj (hi.symm.trans hi'), hi, hp⟩

/-- **Reading a register**: equal, or something symbolic was read. -/
theorem Inside.readReg (h : Inside env φ s s') (i : Reg) : Inside env (φ ∧ s.reg i = s'.reg i)
      { s with analyzer := s.analyzer.tciReadReg i, moved := .read (.reg i) (s.reg i) :: s.moved }
      { s' with analyzer := s'.analyzer.tciReadReg i,
                moved := .read (.reg i) (s'.reg i) :: s'.moved } := by
  cases hi : s.analyzer.reg i with
  | true =>
    have ha : s.analyzer.tciReadReg i =
        { s.analyzer with readWasSymbolic := true, block := true } :=
      if_pos hi
    rw [← h.analyzer, ha]
    exact { h with
      analyzer := rfl, moved := (nomatch ·), flagged := fun _ => rfl, known := (nomatch ·) }
  | false =>
    have ha : s.analyzer.tciReadReg i = s.analyzer := if_neg (by rw [isRegSymbolic, hi]; decide)
    rw [← h.analyzer, ha]
    refine { h with
      analyzer := rfl, moved := fun hb => ?_, known := fun hr => ⟨h.known hr, h.reg i hi⟩ }
    show Moved.read (.reg i) (s.reg i) :: s.moved = .read (.reg i) (s'.reg i) :: s'.moved
    rw [h.reg i hi, h.moved hb]

theorem tciReadReg_coupled (index : UInt8) : Reads env T φ (tciReadReg index) := by
  refine (regOf_coupled index).bind_eq fun i => ?_
  exact coupled_modifyGet (fun _ => rfl) (fun _ => rfl) fun s s' h => h.2.readReg i

/-- A register and its mark are written together. -/
theorem reg_update {marks : Reg → Bool} {r r' : Reg → UInt64}
    (h : ∀ k, marks k = false → r k = r' k) (i : Reg) {b : Bool}
    (hb : b = false → v = v') (k : Reg) (hk : update marks i b k = false) :
    update r i v k = update r' i v' k := by
  by_cases hki : k = i
  · rw [hki, update_self] at hk
    rw [hki, update_self, update_self, hb hk]
  · rw [update_of_ne hki] at hk
    rw [update_of_ne hki, update_of_ne hki]
    exact h k hk

/-- **Writing a register**: marked if something symbolic was read. -/
theorem Inside.writeReg (h : Inside env φ s s') (hv : φ → v = v') (i : Reg) : Inside env φ
      { s with analyzer := s.analyzer.tciWriteReg i, reg := update s.reg i v,
               moved := .write (.reg i) v :: s.moved }
      { s' with analyzer := s'.analyzer.tciWriteReg i, reg := update s'.reg i v',
                moved := .write (.reg i) v' :: s'.moved } := by
  cases hr : s.analyzer.readWasSymbolic with
  | true =>
    have ha : s.analyzer.tciWriteReg i = s.analyzer.makeRegSymbolic i := if_pos hr
    rw [← h.analyzer, ha]
    exact { h with
      analyzer := rfl, reg := reg_update h.reg i (nomatch ·), moved := (nomatch ·),
      flagged := fun _ => rfl }
  | false =>
    have ha : s.analyzer.tciWriteReg i = s.analyzer.makeRegConcrete i :=
      if_neg (by rw [hr]; decide)
    rw [← h.analyzer, ha]
    have he := hv (h.known hr)
    refine { h with
      analyzer := rfl, reg := reg_update h.reg i fun _ => he, moved := fun hb => ?_ }
    show Moved.write (.reg i) v :: s.moved = .write (.reg i) v' :: s'.moved
    rw [he, h.moved hb]

theorem tciWriteReg_coupled (index : UInt8) (hv : φ → v = v') :
    Coupled State.path T (Inside env φ) (tciWriteReg index v) (tciWriteReg index v')
      fun _ _ => Inside env φ := by
  refine (regOf_coupled index).bind_eq fun i => ?_
  exact coupled_modifyGet (fun _ => rfl) (fun _ => rfl) fun s s' h => h.2.writeReg hv i

/-- A result computed from one that was read. -/
theorem Coupled.map_known {α : Type} {m : Exec α} {χ : Prop} (f : α → α)
    (h : Coupled State.path T (Inside env χ) m m fun v v' => Inside env (φ ∧ v = v')) :
    Coupled State.path T (Inside env χ) (m >>= fun v => pure (f v)) (m >>= fun v => pure (f v))
      fun v v' => Inside env (φ ∧ v = v') := by
  refine h.bind fun _ _ => coupled_pure fun s s' hi => hi.mono fun ⟨hφ, e⟩ => ⟨hφ, by rw [e]⟩

theorem readR_coupled (w : Width) : Reads env T φ (readR env w) :=
  readByte_coupled.bind_eq fun b => Coupled.map_known w.trunc (tciReadReg_coupled b)

theorem readRi_coupled (w : Width) : Reads env T φ (readRi env w) := by
  refine readByte_coupled.bind_eq fun r => ?_
  by_cases hr : r = 255
  · rw [if_pos hr]
    exact (readI_coupled _).conseq (fun _ _ h => h) fun v v' s s' ⟨e, h⟩ => h.mono fun hφ => ⟨hφ, e⟩
  · rw [if_neg hr]
    exact Coupled.map_known w.trunc (tciReadReg_coupled r)

theorem readUlong_coupled : Reads env T φ (readUlong env) :=
  Coupled.map_known env.target.wrap (readR_coupled .w64)

theorem readLabel_coupled : Fetches env T φ (readLabel env) :=
  (readI_coupled 8).bind_eq fun _ => coupled_pure fun _ _ h => ⟨rfl, h⟩

/-! ## 3. Loads -/

/-- After a load and before the analyzer knows: `c` says that both loaded the same, and holds
    unless the analyzer will find the loaded bytes marked. -/
structure Loaded (env : Env) (symbolic symbolic' : Analyzer → Bool) (c : Prop) (s s' : State) :
    Prop extends SameBut env s s' where
  moved : c → s.analyzer.block = false → s.moved = s'.moved
  same : symbolic = symbolic'
  clean : symbolic s.analyzer = false → c

/-- The register written and the rule of loads applied. -/
def loaded (s : State) (symbolic : Analyzer → Bool) (v : UInt64) (i : Reg) : State :=
  { s with
    analyzer := (s.analyzer.tciWriteReg i).loadRule i (symbolic (s.analyzer.tciWriteReg i))
    reg := update s.reg i v
    moved := .write (.reg i) v :: s.moved }

theorem tciWriteReg_block {a : Analyzer} {i : Reg} (h : (a.tciWriteReg i).block = false) :
    a.block = false := by
  unfold Analyzer.tciWriteReg at h
  split at h
  · cases h
  · exact h

section

variable (a : Analyzer) (i : Reg)

include a i

theorem tciWriteReg_reg : (a.tciWriteReg i).reg = update a.reg i a.readWasSymbolic := by
  unfold Analyzer.tciWriteReg
  split
  · rename_i hr
    rw [hr]
    rfl
  · rename_i hr
    rw [Bool.eq_false_iff.2 hr]
    rfl

/-- The marks of memory are not those of registers. -/
theorem tciWriteReg_mem :
    (a.tciWriteReg i).hostMem = a.hostMem ∧ (a.tciWriteReg i).guestMem = a.guestMem := by
  unfold Analyzer.tciWriteReg
  split <;> exact ⟨rfl, rfl⟩

theorem loadRule_mem (b : Bool) :
    (a.loadRule i b).hostMem = a.hostMem ∧ (a.loadRule i b).guestMem = a.guestMem := by
  cases b <;> exact ⟨rfl, rfl⟩

theorem loadRule_reg (b : Bool) : (a.loadRule i b).reg = update a.reg i b := by
  cases b <;> rfl

end

/-- **A load settles its register.** -/
theorem Loaded.settle {symbolic symbolic' : Analyzer → Bool} {c : Prop}
    (h : Loaded env symbolic symbolic' c s s') (hv : c → v = v')
    (hsym : ∀ a i, symbolic (a.tciWriteReg i) = symbolic a) (i : Reg) :
    Agree env (loaded s symbolic v i) (loaded s' symbolic' v' i) := by
  have hclean : symbolic (s.analyzer.tciWriteReg i) = false → c := fun e => by
    rw [hsym] at e
    exact h.clean e
  refine ⟨⟨?_, h.tables, h.next, fun k hk => ?_, fun p hp => ?_, fun k m a ha hg => ?_⟩,
    fun hb => ?_⟩
  · show loadRule _ _ _ = loadRule _ _ _
    rw [h.analyzer, h.same]
  · have hk' : (loadRule _ i _).reg k = false := hk
    rw [loadRule_reg, tciWriteReg_reg, update_idem] at hk'
    exact reg_update h.reg i (fun e => hv (hclean e)) k hk'
  · have hp' : (loadRule _ i _).hostMem p = false := hp
    rw [(loadRule_mem _ i _).1, (tciWriteReg_mem _ i).1] at hp'
    exact h.host p hp'
  · have hg' : (loadRule _ i _).guestMem a = false := hg
    rw [(loadRule_mem _ i _).2, (tciWriteReg_mem _ i).2] at hg'
    exact h.guest k m a ha hg'
  · have hb' : (loadRule (s.analyzer.tciWriteReg i) i _).block = false := hb
    cases hs : symbolic (s.analyzer.tciWriteReg i) with
    | true =>
      rw [hs] at hb'
      cases hb'
    | false =>
      rw [hs] at hb'
      show Moved.write (.reg i) v :: s.moved = .write (.reg i) v' :: s'.moved
      rw [hv (hclean hs), h.moved (hclean hs) (tciWriteReg_block hb')]

theorem settle_coupled {symbolic symbolic' : Analyzer → Bool} {c : Prop}
    (hv : c → v = v') (hsym : ∀ a i, symbolic (a.tciWriteReg i) = symbolic a) (t0 : UInt8) :
    Coupled State.path T (Loaded env symbolic symbolic' c)
      (tciWriteReg t0 v >>= fun _ => analyse t0 fun a i => a.loadRule i (symbolic a))
      (tciWriteReg t0 v' >>= fun _ => analyse t0 fun a i => a.loadRule i (symbolic' a))
      fun _ _ => Agree env := by
  -- what the write leaves behind is kept whole, for the rule to settle
  have hwrite : Coupled State.path T (Loaded env symbolic symbolic' c) (tciWriteReg t0 v)
      (tciWriteReg t0 v') fun _ _ s s' => ∃ u u' i, regOf t0 = .ok i ∧
        Loaded env symbolic symbolic' c u u' ∧
        s = { u with analyzer := u.analyzer.tciWriteReg i, reg := update u.reg i v,
                     moved := .write (.reg i) v :: u.moved } ∧
        s' = { u' with analyzer := u'.analyzer.tciWriteReg i, reg := update u'.reg i v',
                       moved := .write (.reg i) v' :: u'.moved } := by
    refine (regOf_coupled t0).bind_eq fun i => ?_
    exact coupled_modifyGet (fun _ => rfl) (fun _ => rfl) fun s s' h =>
      ⟨s, s', i, h.1, h.2, rfl, rfl⟩
  refine hwrite.bind fun _ _ => (regOf_coupled t0).bind_eq fun i => ?_
  refine coupled_modifyGet (fun _ => rfl) (fun _ => rfl) fun s s' h => ?_
  obtain ⟨hi, u, u', i', hi', hl, rfl, rfl⟩ := h
  cases hi.symm.trans hi'
  exact hl.settle hv hsym i

/-- Equal addresses of a memory access. -/
theorem host_inj {addr addr' : UInt64} {n : Nat}
    (h : Observed.access (.host addr n) = .access (.host addr' n)) : addr = addr' := by
  cases h
  rfl

theorem guest_inj {addr addr' : UInt64} {n : Nat}
    (h : Observed.access (.guest addr n) = .access (.guest addr' n)) : addr = addr' := by
  cases h
  rfl

theorem hostLoad_coupled (n : Nat) (addr addr' : UInt64) :
    Coupled State.path T (Inside env φ) (hostLoad n addr) (hostLoad n addr')
      fun v v' => Loaded env (fun a => anyByte a.hostMem addr n)
        (fun a => anyByte a.hostMem addr' n) (v = v') := by
  refine coupled_observe (fun _ => rfl) (fun _ => rfl) fun s s' h hx _ => ?_
  obtain rfl := host_inj hx
  refine { h with moved := fun hc hb => ?_, same := rfl, clean := fun hs => ?_ }
  · show Moved.read _ _ :: s.moved = Moved.read _ _ :: s'.moved
    rw [show word _ n = word _ n from hc, h.moved hb]
  · exact word_congr fun j hj => h.host _ (anyByte_eq_false.1 hs j hj)

/-- Within the address space, addresses are not cut. -/
theorem wrap_of_fits {addr : UInt64} {n : Nat}
    (h : Observed.Fits env.target (.access (.guest addr n))) {j : Nat} (hj : j < n) :
    env.target.wrap (addr + UInt64.ofNat j) = addr + UInt64.ofNat j := by
  cases ht : env.target with
  | bits64 => rfl
  | bits32 =>
    have hle : addr.toNat + n ≤ 2 ^ 32 := h ht
    have hnat : (addr + UInt64.ofNat j).toNat = addr.toNat + j := by
      rw [UInt64.toNat_add, UInt64.toNat_ofNat']
      omega
    apply UInt64.toNat.inj
    rw [TargetLong.wrap, UInt32.toNat_toUInt64, UInt64.toNat_toUInt32, hnat]
    omega

theorem ldMmu_coupled (hT : ∀ x ∈ T, x.Fits env.target) (n : Nat) (addr addr' mmuIdx : UInt64) :
    Coupled State.path T (Inside env φ) (ldMmu env n addr mmuIdx) (ldMmu env n addr' mmuIdx)
      fun v v' => Loaded env (fun a => anyByte a.guestMem addr n)
        (fun a => anyByte a.guestMem addr' n) (v = v') := by
  refine coupled_observe (fun _ => rfl) (fun _ => rfl) fun s s' h hx hm => ?_
  obtain rfl := guest_inj hx
  refine { h with moved := fun hc hb => ?_, same := rfl, clean := fun hs => ?_ }
  · show Moved.read _ _ :: s.moved = Moved.read _ _ :: s'.moved
    rw [show word _ n = word _ n from hc, h.moved hb]
  · refine word_congr fun j hj => ?_
    have hw := wrap_of_fits (hT _ hm) hj
    show s.guest (env.location s.tables mmuIdx addr j) =
      s'.guest (env.location s'.tables mmuIdx addr j)
    rw [← h.tables]
    refine h.guest _ _ _ ?_ ?_
    · rw [hw, hw]
    · rw [hw]
      exact anyByte_eq_false.1 hs j hj

/-! ## 4. Stores -/

/-- **A store of CPU state.** -/
theorem Inside.hostStored (h : Inside env φ s s') (hv : φ → v = v') (n : Nat)
    {t1 t2 t1' t2' : UInt64} (ha : t1 + t2 = t1' + t2') :
    Agree env { s.hostStored n (t1 + t2) v with analyzer := hostStoreRule n s.analyzer t1 t2 }
      { s'.hostStored n (t1' + t2') v' with analyzer := hostStoreRule n s'.analyzer t1' t2' } := by
  refine ⟨⟨?_, h.tables, h.next, fun i hi => ?_, fun p hp => ?_, fun k m a hw hg => ?_⟩,
    fun hb => ?_⟩
  · show hostStoreRule n s.analyzer t1 t2 = hostStoreRule n s'.analyzer t1' t2'
    rw [hostStoreRule, hostStoreRule, h.analyzer, ha]
  · have hi' : (hostStoreRule n s.analyzer t1 t2).reg i = false := hi
    rw [hostStoreRule_frame Analyzer.reg (fun _ _ => rfl) fun _ _ => rfl] at hi'
    exact h.reg i hi'
  · have hp' : (hostStoreRule n s.analyzer t1 t2).hostMem p = false := hp
    rw [hostStoreRule_hostMem] at hp'
    show store s.host _ v n p = store s'.host _ v' n p
    rw [← ha]
    exact store_marked Iff.rfl (h.host p) (fun hr => hv (h.known hr)) hp'
  · have hg' : (hostStoreRule n s.analyzer t1 t2).guestMem a = false := hg
    rw [hostStoreRule_frame guestMem (fun _ _ => rfl) fun _ _ => rfl] at hg'
    exact h.guest k m a hw hg'
  · have hb' := hostStoreRule_block hb
    show Moved.write (.host (t1 + t2) n) v :: s.moved = .write (.host (t1' + t2') n) v' :: s'.moved
    rw [ha, hv (h.of_block hb'), h.moved hb']

/-- **A store of guest memory.** -/
theorem Inside.guestStored (h : Inside env φ s s') (hv : φ → v = v') {b : Bool}
    (hb : b = false → v = v') {n : Nat} {addr : UInt64}
    (hone : Observed.OneToOne env (.access (.guest addr n)))
    (hfits : Observed.Fits env.target (.access (.guest addr n))) (mmuIdx : UInt64) :
    Agree env
      { s.guestStored env n addr v mmuIdx with analyzer := guestStoreRule n s.analyzer b addr }
      { s'.guestStored env n addr v' mmuIdx with
        analyzer := guestStoreRule n s'.analyzer b addr } := by
  refine ⟨⟨?_, h.tables, h.next, fun i hi => ?_, fun p hp => ?_, fun k m a hw hg => ?_⟩,
    fun hblock => ?_⟩
  · show guestStoreRule n s.analyzer b addr = guestStoreRule n s'.analyzer b addr
    rw [h.analyzer]
  · have hi' : (guestStoreRule n s.analyzer b addr).reg i = false := hi
    rw [guestStoreRule_frame Analyzer.reg (fun _ _ => rfl) fun _ _ => rfl] at hi'
    exact h.reg i hi'
  · have hp' : (guestStoreRule n s.analyzer b addr).hostMem p = false := hp
    rw [guestStoreRule_frame hostMem (fun _ _ => rfl) fun _ _ => rfl] at hp'
    exact h.host p hp'
  · have hg' : (guestStoreRule n s.analyzer b addr).guestMem a = false := hg
    rw [guestStoreRule_guestMem] at hg'
    show store s.guest _ v n (env.translate k m a) = store s'.guest _ v' n (env.translate k m a)
    rw [← h.tables]
    refine store_marked ?_ (h.guest k m a hw) hb hg'
    -- the bytes of the store are where the addresses of the marks are
    refine exists_congr fun j => and_congr_right fun hj => ?_
    have hwj := wrap_of_fits hfits hj
    rw [Env.location, hwj]
    exact (hone j hj s.tables mmuIdx k m a hw).symm
  · have hb' := guestStoreRule_block hblock
    show Moved.write (.guest addr n) v :: s.moved = .write (.guest addr n) v' :: s'.moved
    rw [hv (h.of_block hb'), h.moved hb']

/-- What a store leaves behind is kept whole, for the analyzer's rule to settle. -/
theorem hostStore_coupled (n : Nat) (addr addr' v v' : UInt64) :
    Coupled State.path T P (hostStore n addr v) (hostStore n addr' v') fun _ _ s s' =>
      ∃ u u', P u u' ∧ addr = addr' ∧ s = u.hostStored n addr v ∧ s' = u'.hostStored n addr' v' :=
  coupled_observe (fun _ => rfl) (fun _ => rfl) fun s s' h hx _ =>
    ⟨s, s', h, host_inj hx, rfl, rfl⟩

theorem stMmu_coupled (hone : ∀ x ∈ T, x.OneToOne env) (hT : ∀ x ∈ T, x.Fits env.target) (n : Nat)
    (addr addr' v v' mmuIdx : UInt64) :
    Coupled State.path T P (stMmu env n addr v mmuIdx) (stMmu env n addr' v' mmuIdx) fun _ _ s s' =>
      ∃ u u', P u u' ∧ addr = addr' ∧ Observed.OneToOne env (.access (.guest addr n)) ∧
        Observed.Fits env.target (.access (.guest addr n)) ∧
        s = u.guestStored env n addr v mmuIdx ∧ s' = u'.guestStored env n addr' v' mmuIdx :=
  coupled_observe (fun _ => rfl) (fun _ => rfl) fun s s' h hx hm =>
    ⟨s, s', h, guest_inj hx, hone _ hm, hT _ hm, rfl, rfl⟩

/-! ## 5. Operations -/

section Operations

/-- A register gets a value that was computed from what was read. -/
theorem compute_coupled {α : Type} {x x' : Except Stop α} (h : φ → x = x') (t0 : UInt8)
    (f : α → UInt64) :
    Coupled State.path T (Inside env φ) (liftM x >>= fun v => tciWriteReg t0 (f v))
      (liftM x' >>= fun v => tciWriteReg t0 (f v)) fun _ _ => Agree env := by
  have hlift : Coupled State.path T (Inside env φ) (liftM x : Exec α) (liftM x')
      fun v v' => Inside env (v = v') := by
    refine coupled_lift fun s s' v v' hi hx hx' => hi.mono fun hφ => ?_
    rw [h hφ] at hx
    exact Except.ok.inj (hx.symm.trans hx')
  refine hlift.bind fun v v' => ?_
  refine (tciWriteReg_coupled t0 fun e => ?_).conseq (fun _ _ h => h) fun _ _ _ _ h => h.toAgree
  rw [e]

theorem unaryOp_coupled (r : Width) (f : UInt64 → UInt64) (w : Width) :
    Completes env T φ (unaryOp env r f w) := by
  refine readByte_coupled.bind_eq fun t0 => (readR_coupled r).bind fun t1 t1' => ?_
  refine (tciWriteReg_coupled t0 fun h => ?_).conseq (fun _ _ h => h) fun _ _ _ _ h => h.toAgree
  rw [h.2]

theorem moviOp_coupled (w : Width) : Completes env T φ (moviOp env w) := by
  refine readByte_coupled.bind_eq fun t0 => (readI_coupled _).bind_eq fun t1 => ?_
  exact (tciWriteReg_coupled t0 fun _ => rfl).conseq (fun _ _ h => h) fun _ _ _ _ h => h.toAgree

theorem binaryOp_coupled (w : Width) (f : UInt64 → UInt64 → Except Stop UInt64) :
    Completes env T φ (binaryOp env w f) := by
  refine readByte_coupled.bind_eq fun t0 => (readRi_coupled w).bind fun t1 t1' => ?_
  refine (readRi_coupled w).bind fun t2 t2' => compute_coupled (fun ⟨⟨_, e₁⟩, e₂⟩ => ?_) t0 w.trunc
  rw [e₁, e₂]

theorem setcondOp_coupled (w : Width) : Completes env T φ (setcondOp env w) := by
  refine readByte_coupled.bind_eq fun t0 => (readR_coupled w).bind fun t1 t1' => ?_
  refine (readRi_coupled w).bind fun t2 t2' => readByte_coupled.bind_eq fun condition => ?_
  refine compute_coupled (fun ⟨⟨_, e₁⟩, e₂⟩ => ?_) t0 fun r : Bool => w.trunc (if r then 1 else 0)
  rw [e₁, e₂]

theorem Agree.jump (h : Agree env s s') (p p' : UInt64) :
    Agree env { s with tbPtr := p } { s' with tbPtr := p' } :=
  { h with }

theorem jump_coupled (p : UInt64) : Completes env T φ (jump p) :=
  coupled_modifyGet (fun _ => rfl) (fun _ => rfl) fun _ _ h => h.toAgree.jump p p

/-- The two runs may go on at different places: that the next operation is the same is known from
    the path. -/
theorem branch_coupled (r r' : Bool) (label : UInt64) :
    Coupled State.path T (Inside env φ) (if r then jump label else pure ())
      (if r' then jump label else pure ()) fun _ _ => Agree env := by
  have hgo : ∀ b : Bool, (if b then jump label else pure () : Exec Unit) =
      modifyGet fun s => ((), { s with tbPtr := if b then label else s.tbPtr }) := by
    intro b
    cases b <;> rfl
  rw [hgo, hgo]
  exact coupled_modifyGet (fun _ => rfl) (fun _ => rfl) fun _ _ h => h.toAgree.jump _ _

theorem brcondOp_coupled (w : Width) : Completes env T φ (brcondOp env w) := by
  have hmark : Coupled State.path T (Inside env φ)
      (modifyGet fun s => ((), { s with analyzer := s.analyzer.tciBrcond }) : Exec Unit)
      (modifyGet fun s => ((), { s with analyzer := s.analyzer.tciBrcond }))
      fun _ _ => Inside env φ := by
    refine coupled_modifyGet (fun _ => rfl) (fun _ => rfl) fun s s' h => ?_
    refine { h with analyzer := ?_ }
    show s.analyzer.tciBrcond = s'.analyzer.tciBrcond
    rw [h.analyzer]
  refine hmark.bind fun _ _ => (readR_coupled w).bind fun t0 t0' => ?_
  refine (readRi_coupled w).bind fun t1 t1' => readByte_coupled.bind_eq fun condition => ?_
  refine readLabel_coupled.bind_eq fun label => ?_
  exact (coupled_lift fun _ _ _ _ h _ _ => h).bind fun r r' => branch_coupled r r' label

theorem brOp_coupled : Completes env T φ (brOp env) :=
  readLabel_coupled.bind_eq fun label => jump_coupled label

theorem exitTbOp_coupled : Completes env T φ (exitTbOp env) := by
  refine coupled_modifyGet (fun _ => rfl) (fun _ => rfl) fun s s' h => ?_
  refine { h with next := ?_ }
  show some (word (fun j => env.code (s.tbPtr + UInt64.ofNat j)) 8) = some _
  rw [h.tbPtr]

theorem gotoTbOp_coupled (dump : Bool) : Completes env T φ (gotoTbOp env dump) :=
  (readI_coupled 4).bind_eq fun _ =>
    coupled_modifyGet (fun _ => rfl) (fun _ => rfl) fun _ _ h => h.toAgree.jump _ _

theorem callOp_coupled : Completes env T φ (callOp env) := by
  refine (readRi_coupled .w64).bind fun t0 t0' => (tciReadReg_coupled 0).bind fun a0 a0' => ?_
  refine (tciReadReg_coupled 1).bind fun a1 a1' => (tciReadReg_coupled 2).bind fun a2 a2' => ?_
  refine (tciReadReg_coupled 3).bind fun a3 a3' => ?_
  refine (tciWriteReg_coupled 0 fun h => ?_).conseq (fun _ _ h => h) fun _ _ _ _ h => h.toAgree
  obtain ⟨⟨⟨⟨⟨_, rfl⟩, rfl⟩, rfl⟩, rfl⟩, rfl⟩ := h
  rfl

theorem ldOp_coupled (n : Nat) (ext : UInt64 → UInt64) :
    Completes env T φ (ldOp env n ext (hostLoadRule n)) := by
  refine readByte_coupled.bind_eq fun t0 => (readR_coupled .w64).bind fun t1 t1' => ?_
  refine (readI_coupled 4).bind_eq fun t2 => (hostLoad_coupled n _ _).bind fun v v' => ?_
  refine settle_coupled (fun h => by rw [h]) (fun a i => ?_) t0
  rw [(tciWriteReg_mem a i).1]

theorem qemuLdOp_coupled (hT : ∀ x ∈ T, x.Fits env.target) (n : Nat) (ext : UInt64 → UInt64) :
    Completes env T φ (qemuLdOp env n ext (guestLoadRule n)) := by
  refine readByte_coupled.bind_eq fun t0 => readUlong_coupled.bind fun taddr taddr' => ?_
  refine (readI_coupled 8).bind_eq fun mmuIdx => (ldMmu_coupled hT n _ _ mmuIdx).bind fun v v' => ?_
  refine settle_coupled (fun h => by rw [h]) (fun a i => ?_) t0
  rw [(tciWriteReg_mem a i).2]

theorem stOp_coupled (w : Width) : Completes env T φ (stOp env w (hostStoreRule w.bytes)) := by
  refine (readR_coupled w).bind fun t0 t0' => (readR_coupled .w64).bind fun t1 t1' => ?_
  refine (readI_coupled 4).bind_eq fun t2 => ?_
  refine (hostStore_coupled w.bytes _ _ t0 t0').bind fun _ _ => ?_
  refine coupled_modifyGet (fun _ => rfl) (fun _ => rfl) fun s s' h => ?_
  obtain ⟨u, u', hu, ha, rfl, rfl⟩ := h
  exact hu.hostStored (fun h => h.1.2) w.bytes ha

/-- The register with this index holds this value. -/
def Holds (index : UInt8) (v : UInt64) (s : State) : Prop := ∀ i, regOf index = .ok i → s.reg i = v

/-- Reading an address does not change the registers. -/
theorem readUlong_keeps (index : UInt8) (v : UInt64) : Keeps (Holds index v) (readUlong env) :=
  ((keeps_modifyGet fun _ h => h).bind fun _ =>
    (keeps_lift.bind fun _ => keeps_modifyGet fun _ h => h).bind fun _ =>
      keeps_modifyGet fun _ h => h).bind fun _ => keeps_modifyGet fun _ h => h

theorem readI_holds (index : UInt8) (v v' : UInt64) (n : Nat) :
    Coupled State.path T (fun s s' => Inside env φ s s' ∧ Holds index v s ∧ Holds index v' s')
      (readI env n) (readI env n)
      fun x x' s s' => x = x' ∧ Inside env φ s s' ∧ Holds index v s ∧ Holds index v' s' :=
  ((readI_coupled n).frame (keeps_modifyGet fun _ h => h) (keeps_modifyGet fun _ h => h)).conseq
    (fun _ _ h => h) fun _ _ _ _ h => ⟨h.1.1, h.1.2, h.2⟩

section

variable (hone : ∀ x ∈ T, x.OneToOne env) (hT : ∀ x ∈ T, x.Fits env.target)

include hone hT

/-- The narrow stores: the mark of the stored register is asked for after its value was read. -/
theorem qemuStOp_coupled (w : Width) :
    Completes env T φ (qemuStOp env w fun a i => guestStoreRule w.bytes a (a.isRegSymbolic i)) := by
  refine readByte_coupled.bind_eq fun c => ?_
  -- the register still holds the value when the analyzer asks
  have hread : Coupled State.path T (Inside env φ) (tciReadReg c) (tciReadReg c)
      fun v v' s s' => Inside env (φ ∧ v = v') s s' ∧ Holds c v s ∧ Holds c v' s' := by
    refine (regOf_coupled c).bind_eq fun i => ?_
    refine coupled_modifyGet (fun _ => rfl) (fun _ => rfl) fun s s' h => ⟨h.2.readReg i, ?_, ?_⟩
    · intro k hk
      cases h.1.symm.trans hk
      rfl
    · intro k hk
      cases h.1.symm.trans hk
      rfl
  refine hread.bind fun t0 t0' => ?_
  refine (readUlong_coupled.frame (readUlong_keeps c t0) (readUlong_keeps c t0')).bind
    fun taddr taddr' => ?_
  refine (readI_holds c t0 t0' 8).bind_eq fun mmuIdx => ?_
  refine (stMmu_coupled hone hT w.bytes _ _ _ _ mmuIdx).bind fun _ _ =>
    (regOf_coupled c).bind_eq fun i => ?_
  refine coupled_modifyGet (fun _ => rfl) (fun _ => rfl) fun s s' h => ?_
  obtain ⟨hi, u, u', ⟨hu, hr, hr'⟩, rfl, hown, hfits, rfl, rfl⟩ := h
  have hsym : u'.analyzer.isRegSymbolic i = u.analyzer.isRegSymbolic i := by rw [hu.analyzer]
  have hval : u.analyzer.isRegSymbolic i = false → t0 = t0' := fun hb => by
    rw [← hr i hi, ← hr' i hi]
    exact hu.reg i hb
  show Agree env { u.guestStored env w.bytes taddr (w.trunc t0) mmuIdx with
      analyzer := guestStoreRule w.bytes u.analyzer (u.analyzer.isRegSymbolic i) taddr }
    { u'.guestStored env w.bytes taddr (w.trunc t0') mmuIdx with
      analyzer := guestStoreRule w.bytes u'.analyzer (u'.analyzer.isRegSymbolic i) taddr }
  rw [hsym]
  exact hu.guestStored (fun h => by rw [h.1.2]) (fun hb => by rw [hval hb]) hown hfits mmuIdx

theorem qemuSt64Op_coupled : Completes env T φ (qemuSt64Op env) := by
  refine (readR_coupled .w64).bind fun v v' => readUlong_coupled.bind fun taddr taddr' => ?_
  refine (readI_coupled 8).bind_eq fun mmuIdx =>
    (stMmu_coupled hone hT 8 _ _ _ _ mmuIdx).bind fun _ _ => ?_
  refine coupled_modifyGet (fun _ => rfl) (fun _ => rfl) fun s s' h => ?_
  obtain ⟨u, u', hu, rfl, hown, hfits, rfl, rfl⟩ := h
  show Agree env { u.guestStored env 8 taddr v mmuIdx with
      analyzer := guestStoreRule 8 u.analyzer u.analyzer.readWasSymbolic taddr }
    { u'.guestStored env 8 taddr v' mmuIdx with
      analyzer := guestStoreRule 8 u'.analyzer u'.analyzer.readWasSymbolic taddr }
  rw [show u'.analyzer.readWasSymbolic = u.analyzer.readWasSymbolic by rw [hu.analyzer]]
  exact hu.guestStored (fun h => h.1.2) (fun hb => (hu.known hb).1.2) hown hfits mmuIdx

/-- **Every operation.** -/
theorem execOp_coupled (dump : Bool) (op : Opcode) : Completes env T φ (execOp env dump op) := by
  cases op
  case opEnd | nop => exact coupled_pure fun _ _ h => h.toAgree
  case call => exact callOp_coupled
  case jmp | br => exact brOp_coupled
  case setcondI32 | setcondI64 => exact setcondOp_coupled _
  case moviI32 | moviI64 => exact moviOp_coupled _
  case brcondI32 | brcondI64 => exact brcondOp_coupled _
  case movI32 | ext8sI32 | ext16sI32 | ext8uI32 | ext16uI32 | bswap16I32 | bswap32I32 | notI32
    | negI32 | movI64 | ext8uI64 | ext8sI64 | ext16sI64 | ext16uI64 | ext32sI64 | ext32uI64
    | bswap32I64 | bswap64I64 | notI64 | negI64 => exact unaryOp_coupled _ _ _
  case addI32 | subI32 | mulI32 | divI32 | divuI32 | remI32 | remuI32 | andI32 | orI32 | xorI32
    | shlI32 | shrI32 | sarI32 | rotlI32 | rotrI32 | addI64 | subI64 | mulI64 | andI64 | orI64
    | xorI64 | shlI64 | shrI64 | sarI64 => exact binaryOp_coupled _ _
  case ld8uI32 | ldI32 | ld8uI64 | ld32uI64 | ld32sI64 | ldI64 => exact ldOp_coupled _ _
  case st8I32 | st8I64 => exact stOp_coupled .w8
  case st16I32 | st16I64 => exact stOp_coupled .w16
  case stI32 | st32I64 => exact stOp_coupled .w32
  case stI64 => exact stOp_coupled .w64
  case exitTb => exact exitTbOp_coupled
  case gotoTb => exact gotoTbOp_coupled dump
  case qemuLd8u | qemuLd8s | qemuLd16u | qemuLd16s | qemuLd32u | qemuLd32s | qemuLd32 | qemuLd64 =>
    exact qemuLdOp_coupled hT _ _
  case qemuSt8 => exact qemuStOp_coupled hone hT .w8
  case qemuSt16 => exact qemuStOp_coupled hone hT .w16
  case qemuSt32 => exact qemuStOp_coupled hone hT .w32
  case qemuSt64 => exact qemuSt64Op_coupled hone hT
  all_goals exact coupled_throw

end

end Operations

/-! ## 6. Runs -/

/-- One round of the loop. -/
theorem step_coupled (hone : ∀ x ∈ T, x.OneToOne env) (hT : ∀ x ∈ T, x.Fits env.target)
    (dump : Bool) :
    Coupled State.path T (Agree env) (step env dump) (step env dump) fun _ _ => Agree env := by
  have hdone : Coupled State.path T (Agree env)
      (modifyGet fun s => (s.next.isSome, s) : Exec Bool) (modifyGet fun s => (s.next.isSome, s))
      fun b b' s s' => b = b' ∧ Agree env s s' :=
    coupled_modifyGet (fun _ => rfl) (fun _ => rfl) fun s s' h => ⟨by rw [h.next], h⟩
  have hfetch : Coupled State.path T (Agree env) (fetch env) (fetch env)
      fun b b' s s' => b = b' ∧ Inside env True s s' := by
    refine coupled_observe (fun _ => rfl) (fun _ => rfl) fun s s' h hx _ => ?_
    have hpc : s.tbPtr = s'.tbPtr := by
      cases s
      cases s'
      cases hx
      rfl
    refine ⟨?_, ⟨⟨?_, h.tables, h.next, h.reg, h.host, h.guest⟩, h.moved⟩, ?_, (nomatch ·),
      fun _ => trivial⟩
    · show env.code s.tbPtr = env.code s'.tbPtr
      rw [hpc]
    · show s.analyzer.regMonitorBegin = s'.analyzer.regMonitorBegin
      rw [h.analyzer]
    · show s.tbPtr + 2 = s'.tbPtr + 2
      rw [hpc]
  refine hdone.bind_eq fun done => ?_
  cases done with
  | true => exact coupled_throw
  | false =>
    refine hfetch.bind_eq fun opc => ?_
    cases opcodeOf opc with
    | none => exact coupled_throw
    | some op => exact execOp_coupled hone hT dump op

/-- More marks do not hurt. -/
theorem Agree.makeSymbolic (h : Agree env s s') (addr size : UInt64) :
    Agree env { s with analyzer := s.analyzer.tciMakeSymbolic addr size }
      { s' with analyzer := s'.analyzer.tciMakeSymbolic addr size } := by
  have hreg := eachByte_frame makeGuestMemSymbolic s.analyzer addr Analyzer.reg (fun _ _ => rfl)
    size.toNat
  have hhost := eachByte_frame makeGuestMemSymbolic s.analyzer addr hostMem
    (fun _ _ => rfl) size.toNat
  have hguest := eachByte_marks makeGuestMemSymbolic s.analyzer addr guestMem
    (fun _ _ => rfl) size.toNat
  refine ⟨⟨?_, h.tables, h.next, fun i hi => ?_, fun p hp => ?_, fun k m a ha hg => ?_⟩,
    fun hb => ?_⟩
  · show s.analyzer.tciMakeSymbolic addr size = s'.analyzer.tciMakeSymbolic addr size
    rw [h.analyzer]
  · exact h.reg i ((congrFun hreg i).symm.trans hi)
  · exact h.host p ((congrFun hhost p).symm.trans hp)
  · refine h.guest k m a ha ?_
    have hg' := (hguest a).symm.trans hg
    split at hg'
    · cases hg'
    · exact hg'
  · exact h.moved (eachByte_block makeGuestMemSymbolic _ _ (fun _ _ e => nomatch e) _ hb)

/-- **Every event of a run.** -/
theorem handle_coupled (hone : ∀ x ∈ T, x.OneToOne env) (hT : ∀ x ∈ T, x.Fits env.target)
    (e : Event) :
    Coupled State.path T (Agree env) (handle env e) (handle env e) fun _ _ => Agree env := by
  cases e with
  | enter cpustate tbPtr tables =>
    refine coupled_modifyGet (fun _ => rfl) (fun _ => rfl) fun s s' h => ?_
    refine { h with tables := rfl, next := rfl, reg := fun i hi => ?_ }
    show update s.reg areg0 cpustate i = update s'.reg areg0 cpustate i
    by_cases hk : i = areg0
    · rw [hk, update_self, update_self]
    · rw [update_of_ne hk, update_of_ne hk]
      exact h.reg i hi
  | op dump => exact step_coupled hone hT dump
  | makeSymbolic addr size =>
    exact coupled_modifyGet (fun _ => rfl) (fun _ => rfl) fun _ _ h => h.makeSymbolic addr size
  | nextBlock =>
    refine coupled_modifyGet (fun _ => rfl) (fun _ => rfl) fun s s' h => ?_
    refine { h with analyzer := ?_, moved := fun _ => rfl }
    show s.analyzer.tciNextBlock = s'.analyzer.tciNextBlock
    rw [h.analyzer]
  | markBlockSymbolic =>
    refine coupled_modifyGet (fun _ => rfl) (fun _ => rfl) fun s s' h => ?_
    refine { h with analyzer := ?_, moved := (nomatch ·) }
    show s.analyzer.tciMarkBlockSymbolic = s'.analyzer.tciMarkBlockSymbolic
    rw [h.analyzer]

/-- **Noninterference**: two runs of any program, from states that differ in marked places only,
    along one path. What is not marked in the end is equal, and if the block is not marked it
    moved the same values. -/
theorem run_agree (env : Env) (es : List Event) (s s' t t' : State)
    (h : Agree env s s') (hstart : s.path = s'.path) (hrun : run env es s = .ok ((), t))
    (hrun' : run env es s' = .ok ((), t')) (hpath : t.path = t'.path)
    (hone : ∀ x ∈ t.path, x.OneToOne env) (hfits : ∀ x ∈ t.path, x.Fits env.target) :
    Agree env t t' := by
  have hall : Coupled State.path t.path (Agree env) (run env es) (run env es)
      fun _ _ => Agree env := Coupled.forM es fun e _ => handle_coupled hone hfits e
  exact (hall.post s s' hstart h () t () t' hrun hrun' List.suffix_rfl (by rw [hpath])).2

/-- An environment with this byte code from address 0. -/
def codeEnv (target : TargetLong) (translate : UInt64 → UInt64) (bytes : List UInt8) : Env where
  code p := bytes.getD p.toNat 0
  target := target
  translate _ _ a := translate a
  helper _ _ _ _ _ := 0
  undefinedShift _ _ _ := 0

/-- A block is entered at address 0, and so many of its operations are executed. -/
def entered (n : Nat) : List Event := .enter 0 0 0 :: List.replicate n (.op true)

/-- A state with two registers set, guest memory that holds `b` at address 0, and marks on the
    registers `regs` and the guest addresses `guest`. -/
def markedState (r0 r1 : UInt64) (b : UInt8) (regs : List Reg) (guest : List UInt64) : State where
  tbPtr := 0
  reg i := if i = 0 then r0 else if i = 1 then r1 else 0
  host _ := 0
  guest p := if p = 0 then b else 0
  tables := 0
  next := none
  analyzer := ⟨fun i => i ∈ regs, fun a => a ∈ guest, fun _ => false, false, false, false⟩
  path := []
  moved := []

/-- Only marked places differ. -/
theorem markedState_agree {target : TargetLong} {translate : UInt64 → UInt64} {bytes : List UInt8}
    {r0 r0' r1 : UInt64} {b b' : UInt8} {regs : List Reg} {guest : List UInt64}
    (hr : r0 = r0' ∨ 0 ∈ regs) (hb : b = b' ∨ ∀ a, translate a = 0 → a ∈ guest) :
    Agree (codeEnv target translate bytes) (markedState r0 r1 b regs guest)
      (markedState r0' r1 b' regs guest) := by
  refine ⟨⟨rfl, rfl, rfl, fun i hi => ?_, fun _ _ => rfl, fun k m a _ ha => ?_⟩, fun _ => rfl⟩
  · show (if i = 0 then r0 else _) = if i = 0 then r0' else _
    by_cases h0 : i = 0
    · rcases hr with rfl | hr
      · rfl
      · rw [h0] at hi
        exact absurd hr (of_decide_eq_false hi)
    · rw [if_neg h0, if_neg h0]
  · show (if translate a = 0 then b else 0) = if translate a = 0 then b' else 0
    by_cases h0 : translate a = 0
    · rcases hb with rfl | hb
      · rfl
      · exact absurd (hb a h0) (of_decide_eq_false ha)
    · rw [if_neg h0, if_neg h0]

/-- `qemu_ld16u r2, [r1]` and `mov_i64 r3, r0` on a 32 bit guest. -/
def loadEnv : Env := codeEnv .bits32 id [113, 12, 2, 1, 0, 0, 0, 0, 0, 0, 0, 0, 59, 4, 3, 0]

/-- A load of two bytes of which one is symbolic, and a copy of another register. -/
theorem run_agree_load :
    ∃ t t', run loadEnv (entered 2) (markedState 9 0 5 [] [0]) = .ok ((), t) ∧
      run loadEnv (entered 2) (markedState 9 0 6 [] [0]) = .ok ((), t') ∧
      Agree loadEnv t t' := by
  have heval : ∀ b ∈ [5, 6], (run loadEnv (entered 2) (markedState 9 0 b [] [0])).map
      (·.2.path) = .ok [.op 12, .access (.guest 0 2), .op 0] := by decide +kernel
  obtain ⟨⟨_, t⟩, hrun, hpath⟩ := map_eq_ok.1 (heval 5 (by decide))
  obtain ⟨⟨_, t'⟩, hrun', hpath'⟩ := map_eq_ok.1 (heval 6 (by decide))
  have hfits : ∀ x ∈ t.path, x.Fits .bits32 := by
    rw [show t.path = _ from hpath]
    decide
  have hone : ∀ x : Observed, x.OneToOne loadEnv
    | .access (.guest _ _) => fun _ _ _ _ _ _ _ _ => Iff.rfl
    | .access (.host _ _) => trivial
    | .access (.reg _) => trivial
    | .op _ => trivial
  exact ⟨t, t', hrun, hrun', run_agree loadEnv (entered 2)
    (markedState 9 0 5 [] [0]) (markedState 9 0 6 [] [0]) t t'
    (markedState_agree (.inl rfl) (.inr fun a h => List.mem_singleton.2 h)) rfl hrun hrun'
    (hpath.trans hpath'.symm) (fun x _ => hone x) hfits⟩

/-- `qemu_st8 r0, [r1]` on a guest whose pages at 0 and 0x1000 are one page. -/
def aliasEnv : Env :=
  codeEnv .bits64 (fun a => if a / 0x1000 = 1 then a - 0x1000 else a)
    [119, 12, 0, 1, 0, 0, 0, 0, 0, 0, 0, 0]

/-- A 16 bit load at the last address of a 32 bit address space goes on at address 0, which the
    analyzer does not ask for; and a symbolic byte stored to one of two addresses of a byte is not
    marked at the other. -/
theorem run_agree_slips :
    (∃ t t', Agree loadEnv (markedState 9 0xffffffff 5 [] [0]) (markedState 9 0xffffffff 6 [] [0]) ∧
      run loadEnv (entered 1) (markedState 9 0xffffffff 5 [] [0]) = .ok ((), t) ∧
      run loadEnv (entered 1) (markedState 9 0xffffffff 6 [] [0]) = .ok ((), t') ∧
      t.path = t'.path ∧ t.analyzer.reg 2 = false ∧ t.reg 2 ≠ t'.reg 2) ∧
    ∃ t t', Agree aliasEnv (markedState 5 0 0 [0] []) (markedState 6 0 0 [0] []) ∧
      run aliasEnv (entered 1) (markedState 5 0 0 [0] []) = .ok ((), t) ∧
      run aliasEnv (entered 1) (markedState 6 0 0 [0] []) = .ok ((), t') ∧
      t.path = t'.path ∧ t.analyzer.guestMem 0x1000 = false ∧
      t.guest (aliasEnv.translate 0 0 0x1000) ≠ t'.guest (aliasEnv.translate 0 0 0x1000) := by
  have hwrap : ∀ b ∈ [5, 6],
      (run loadEnv (entered 1) (markedState 9 0xffffffff b [] [0])).map
        (fun r => (r.2.path, r.2.analyzer.reg 2, r.2.reg 2)) =
          .ok ([.access (.guest 0xffffffff 2), .op 0], false, 256 * b.toUInt64) := by
    decide +kernel
  have halias : ∀ b ∈ [5, 6], (run aliasEnv (entered 1) (markedState b.toUInt64 0 0 [0] [])).map
      (fun r => (r.2.path, r.2.analyzer.guestMem 0x1000,
        r.2.guest (aliasEnv.translate 0 0 0x1000))) =
        .ok ([.access (.guest 0 1), .op 0], false, b) := by
    decide +kernel
  obtain ⟨⟨_, t⟩, hrun, ht⟩ := map_eq_ok.1 (hwrap 5 (by decide))
  obtain ⟨⟨_, t'⟩, hrun', ht'⟩ := map_eq_ok.1 (hwrap 6 (by decide))
  obtain ⟨⟨_, u⟩, hrunu, hu⟩ := map_eq_ok.1 (halias 5 (by decide))
  obtain ⟨⟨_, u'⟩, hrunu', hu'⟩ := map_eq_ok.1 (halias 6 (by decide))
  simp only [Prod.mk.injEq] at ht ht' hu hu'
  refine ⟨⟨t, t', markedState_agree (.inl rfl) (.inr fun a h => List.mem_singleton.2 h), hrun,
    hrun', ht.1.trans ht'.1.symm, ht.2.1, ?_⟩, u, u', markedState_agree (.inr (by decide))
    (.inl rfl), hrunu, hrunu', hu.1.trans hu'.1.symm, hu.2.1, ?_⟩
  · rw [ht.2.2, ht'.2.2]
    decide
  · rw [hu.2.2, hu'.2.2]
    decide

end Crete.Tci
