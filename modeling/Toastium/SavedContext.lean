import Toastium.Reach
import Toastium.Riscv
import Toastium.Trap

/-!
# Contexts across traps

`STORE_TRAP_FRAME` and `LOAD_TRAP_FRAME` of `state.S`, instruction by instruction, with what the
hardware does when a trap is taken and by `sret`. A trap frame that is saved and loaded again gives
back the context that was interrupted : registers, program counter, privilege and whether interrupts
are enabled (`storeTrapFrame_context`, `loadTrapFrame_context`).

A `ContextRun` is any number of processes on a hart. Their traps are saved to the frame that is
mapped, handlers run and are themselves interrupted, the frames are remapped by `handle_async_trap`,
and other processes are switched to. `contexts_restored` : along every run each frame holds the
context that it is to hold, and a return from a trap continues with the one of the process that is
switched to, as it was interrupted or as its handler has left it.
-/

namespace Toastium

open Riscv

/-! ## The code -/

/-- `TRAPFRAME_ADDRESS`, as an immediate. -/
def frameAddr : BitVec 64 := BitVec.ofNat 64 trapframeAddress

/-- `x2` to `x31`. -/
def upperRegs : List Reg := (List.finRange 32).drop 2

/-- The registers. `x1` is kept in `sscratch`, and what is stored for it is the address. -/
def saveRegs : List Instr :=
  [.csrw .sscratch 1, .li 1 frameAddr] ++ sdFrom 1 0 (1 :: upperRegs)

/-- The reason of the trap. -/
def saveCause : List Instr :=
  [.csrr 10 .scause, .csrr 11 .sepc, .csrr 12 .stval, .csrr 13 .sstatus] ++
    sdFrom 1 31 [10, 11, 12, 13]

/-- `x1`, from `sscratch`. -/
def saveFirst : List Instr :=
  [.add 2 1 0, .csrr 1 .sscratch] ++ sdFrom 2 0 [1] ++ [.fence]

/-- `STORE_TRAP_FRAME`. -/
def storeTrapFrame : List Instr :=
  saveRegs ++ saveCause ++ saveFirst

/-- Where the handler returns to. `scause` and `stval` are loaded but not written back. -/
def loadCause : List Instr :=
  [.li 1 frameAddr] ++ ldFrom 1 31 [10, 11, 12, 13] ++ [.csrw .sepc 11, .csrw .sstatus 13]

/-- The registers, `x1` last. -/
def loadRegs : List Instr :=
  ldFrom 1 1 upperRegs ++ [.ld 1 0 1]

/-- `LOAD_TRAP_FRAME`. -/
def loadTrapFrame : List Instr :=
  loadCause ++ loadRegs

/-- The words of `trapframe`, with `process_ptr`. -/
def frameWords : ℕ := 36

/-! ## Contexts -/

/-- What a program can see of its own execution. -/
@[ext] structure Context where
  pc : BitVec 64
  priv : Privilege
  sie : Bool
  reg : Reg → BitVec 64

/-- The context of a hart that is at an instruction. -/
def context (p : BitVec 64 × Hart) : Context where
  pc := p.1
  priv := p.2.priv
  sie := (p.2.csr .sstatus).getLsbD sie
  reg := p.2.get

/-- The context that a trap frame holds. -/
def frameContext (m : Memory) (frame : BitVec 64) : Context where
  pc := m (wordAddr frame 32)
  priv := retPriv (m (wordAddr frame 34))
  sie := (retStatus (m (wordAddr frame 34))).getLsbD sie
  reg r := if r = 0 then 0 else m (wordAddr frame (r.val - 1))

/-- `TRAPFRAME_ADDRESS` is mapped to a frame, for the supervisor. -/
def FrameWindow (mmu : Mmu) (s : Hart) (frame : BitVec 64) : Prop :=
  Window mmu { s with priv := .supervisor } frameAddr frame frameWords

theorem length_upperRegs : upperRegs.length = 30 := rfl

theorem getElem?_upperRegs {r : Reg} (h : 2 ≤ r.val) : upperRegs[r.val - 2]? = some r := by
  have hlt := r.isLt
  rw [upperRegs, List.getElem?_drop, Nat.add_sub_cancel' h,
    List.getElem?_eq_getElem (by rwa [List.length_finRange]), List.getElem_finRange]
  rfl

theorem two_le_of_ne {r : Reg} (h0 : r ≠ 0) (h1 : r ≠ 1) : 2 ≤ r.val := by
  have h0' : r.val ≠ 0 := fun h => h0 (Fin.ext h)
  have h1' : r.val ≠ 1 := fun h => h1 (Fin.ext h)
  omega

section Macros

variable {mmu : Mmu} {frame : BitVec 64} {s : Hart}

theorem frameWord_ne {j k : ℕ} (hj : j < frameWords) (hk : k < frameWords) (hne : j ≠ k) :
    wordAddr frame j ≠ wordAddr frame k := by
  unfold frameWords at *
  exact fun h => hne (wordAddr_inj frame (by omega) (by omega) h)

theorem execs_saveRegs (shift : BitVec 64) (hw : Window mmu s frameAddr frame frameWords) :
    ∃ t, execs mmu shift saveRegs s = some t ∧ t.priv = s.priv ∧
      t.csr = Function.update s.csr .sscratch (s.get 1) ∧ t.get 1 = frameAddr ∧
      (∀ r : Reg, r ≠ 0 → r ≠ 1 → t.mem (wordAddr frame (r.val - 1)) = s.reg r) ∧
      SameOff frame 35 s.mem t.mem := by
  have hw1 : Window mmu ((s.setCsr .sscratch (s.get 1)).set 1 frameAddr) frameAddr frame
      frameWords := hw.keep rfl rfl (.refl _ _ _)
  have h1 : ((s.setCsr .sscratch (s.get 1)).set 1 frameAddr).get 1 = frameAddr :=
    Hart.get_set_self _ _ (by decide)
  have hstart : execs mmu shift [.csrw .sscratch 1, .li 1 frameAddr] s =
      some ((s.setCsr .sscratch (s.get 1)).set 1 frameAddr) := rfl
  obtain ⟨m, hrun, hin, hout⟩ := execs_sdFrom shift 1 (1 :: upperRegs) 0 hw1 h1 (by decide)
    (by decide)
  refine ⟨{ (s.setCsr .sscratch (s.get 1)).set 1 frameAddr with mem := m }, ?_, rfl, rfl, h1,
    fun r hr0 hr1 => ?_, fun x hx => hout x fun k hk => ?_⟩
  · rw [saveRegs, execs_append, hstart, Option.bind_eq_bind, Option.bind_some, hrun]
  · have hle := two_le_of_ne hr0 hr1
    have hreg : (1 :: upperRegs)[r.val - 1]? = some r := by
      rw [show r.val - 1 = r.val - 2 + 1 by omega, List.getElem?_cons_succ, getElem?_upperRegs hle]
    have hword := hin _ r hreg
    rw [Nat.zero_add] at hword
    refine hword.trans ?_
    exact (Hart.get_set_of_ne _ _ hr1).trans (if_neg hr0)
  · rw [List.length_cons, length_upperRegs] at hk
    exact hx (0 + k) (by omega)

theorem execs_saveCause (shift : BitVec 64) (hw : Window mmu s frameAddr frame frameWords)
    (h1 : s.get 1 = frameAddr) :
    ∃ t, execs mmu shift saveCause s = some t ∧ t.priv = s.priv ∧ t.csr = s.csr ∧
      t.get 1 = frameAddr ∧ t.mem (wordAddr frame 32) = s.csr .sepc ∧
      t.mem (wordAddr frame 34) = s.csr .sstatus ∧
      ∀ x, (∀ k < 4, x ≠ wordAddr frame (31 + k)) → t.mem x = s.mem x := by
  obtain ⟨t, hstart, hpriv, hcsr, hmem, ht1, hsepc, hsstatus⟩ : ∃ t, execs mmu shift
      [.csrr 10 .scause, .csrr 11 .sepc, .csrr 12 .stval, .csrr 13 .sstatus] s = some t ∧
      t.priv = s.priv ∧ t.csr = s.csr ∧ t.mem = s.mem ∧ t.get 1 = s.get 1 ∧
      t.get 11 = s.csr .sepc ∧ t.get 13 = s.csr .sstatus :=
    ⟨_, rfl, rfl, rfl, rfl, rfl, rfl, rfl⟩
  have hw1 : Window mmu t frameAddr frame frameWords :=
    hw.keep hpriv (by rw [hcsr]) (hmem ▸ .refl _ _ _)
  obtain ⟨m, hrun, hin, hout⟩ := execs_sdFrom shift 1 [10, 11, 12, 13] 31 hw1 (ht1.trans h1)
    (by decide) (by decide)
  refine ⟨{ t with mem := m }, ?_, hpriv, hcsr, ht1.trans h1, (hin 1 11 rfl).trans hsepc,
    (hin 3 13 rfl).trans hsstatus, fun x hx => (hout x hx).trans (by rw [hmem])⟩
  rw [saveCause, execs_append, hstart, Option.bind_eq_bind, Option.bind_some, hrun]

theorem execs_saveFirst (shift : BitVec 64) (hw : Window mmu s frameAddr frame frameWords)
    (h1 : s.get 1 = frameAddr) :
    ∃ t, execs mmu shift saveFirst s = some t ∧ t.priv = s.priv ∧ t.csr = s.csr ∧
      t.mem (wordAddr frame 0) = s.csr .sscratch ∧
      ∀ x, x ≠ wordAddr frame 0 → t.mem x = s.mem x := by
  obtain ⟨t, hstart, hpriv, hcsr, hmem, ht2, ht1⟩ : ∃ t, execs mmu shift
      [.add 2 1 0, .csrr 1 .sscratch] s = some t ∧ t.priv = s.priv ∧ t.csr = s.csr ∧
      t.mem = s.mem ∧ t.get 2 = s.get 1 + s.get 0 ∧ t.get 1 = s.csr .sscratch :=
    ⟨_, rfl, rfl, rfl, rfl, rfl, rfl⟩
  have hw1 : Window mmu t frameAddr frame frameWords :=
    hw.keep hpriv (by rw [hcsr]) (hmem ▸ .refl _ _ _)
  have hbase : t.get 2 = frameAddr := by
    rw [ht2, h1]
    exact BitVec.add_zero _
  obtain ⟨m, hrun, hin, hout⟩ := execs_sdFrom shift 2 [1] 0 hw1 hbase (by decide) (by decide)
  refine ⟨{ t with mem := m }, ?_, hpriv, hcsr, (hin 0 1 rfl).trans ht1, fun x hx => ?_⟩
  · rw [saveFirst, execs_append, execs_append, hstart, Option.bind_eq_bind, Option.bind_some, hrun]
    rfl
  · refine (hout x fun k hk => ?_).trans (by rw [hmem])
    obtain rfl : k = 0 := by simpa using hk
    exact hx

/-- What `STORE_TRAP_FRAME` writes. -/
theorem execs_storeTrapFrame (shift : BitVec 64) (hw : Window mmu s frameAddr frame frameWords) :
    ∃ t, execs mmu shift storeTrapFrame s = some t ∧ t.priv = s.priv ∧
      (∀ c, c ≠ .sscratch → t.csr c = s.csr c) ∧
      (∀ r : Reg, r ≠ 0 → t.mem (wordAddr frame (r.val - 1)) = s.reg r) ∧
      t.mem (wordAddr frame 32) = s.csr .sepc ∧ t.mem (wordAddr frame 34) = s.csr .sstatus ∧
      SameOff frame 35 s.mem t.mem := by
  obtain ⟨t1, hrun1, hpriv1, hcsr1, h1, hregs, hout1⟩ := execs_saveRegs shift hw
  have hw1 : Window mmu t1 frameAddr frame frameWords :=
    hw.keep hpriv1 (by rw [hcsr1]; rfl) fun x hx => hout1 x fun k hk =>
      hx k (by unfold frameWords; omega)
  obtain ⟨t2, hrun2, hpriv2, hcsr2, h2, hsepc, hsstatus, hout2⟩ := execs_saveCause shift hw1 h1
  have hw2 : Window mmu t2 frameAddr frame frameWords :=
    hw1.keep hpriv2 (by rw [hcsr2]) fun x hx => hout2 x fun k hk =>
      hx (31 + k) (by unfold frameWords; omega)
  obtain ⟨t3, hrun3, hpriv3, hcsr3, hfirst, hout3⟩ := execs_saveFirst shift hw2 h2
  have hother : ∀ {k : ℕ}, k < frameWords → k ≠ 0 →
      t3.mem (wordAddr frame k) = t2.mem (wordAddr frame k) := fun hk hne =>
    hout3 _ (frameWord_ne hk (by decide) hne)
  refine ⟨t3, ?_, hpriv3.trans (hpriv2.trans hpriv1), fun c hc => ?_, fun r hr => ?_, ?_, ?_,
    fun x hx => ?_⟩
  · rw [storeTrapFrame, execs_append, execs_append, hrun1]
    simp only [Option.bind_eq_bind, Option.bind_some, hrun2, hrun3]
  · rw [hcsr3, hcsr2, hcsr1]
    exact Function.update_of_ne hc _ _
  · by_cases hr1 : r = 1
    · subst hr1
      rw [show (1 : Reg).val - 1 = 0 from rfl, hfirst, hcsr2, hcsr1]
      exact Function.update_self _ _ _
    · have hle := two_le_of_ne hr hr1
      have hlt := r.isLt
      have hk : r.val - 1 < frameWords := by unfold frameWords; omega
      rw [hother hk (by omega), hout2 _ fun k hk' =>
        frameWord_ne hk (by unfold frameWords; omega) (by omega)]
      exact hregs r hr hr1
  · rw [hother (by decide) (by decide), hsepc, hcsr1]
    rfl
  · rw [hother (by decide) (by decide), hsstatus, hcsr1]
    rfl
  · rw [hout3 x (hx 0 (by decide)), hout2 x fun k hk => hx (31 + k) (by omega)]
    exact hout1 x hx

/-- A frame that is saved when a trap is taken holds the context that is interrupted. -/
theorem storeTrapFrame_context (shift cause tval : BitVec 64) {p : BitVec 64 × Hart}
    (hw : FrameWindow mmu p.2 frame) :
    ∃ t, execs mmu shift storeTrapFrame (takeTrap cause tval p).2 = some t ∧
      t.priv = .supervisor ∧ t.csr .satp = p.2.csr .satp ∧ frameContext t.mem frame = context p ∧
      SameOff frame 35 p.2.mem t.mem := by
  have hw' : Window mmu (takeTrap cause tval p).2 frameAddr frame frameWords :=
    hw.keep rfl rfl (.refl _ _ _)
  obtain ⟨t, hrun, hpriv, hcsr, hregs, hsepc, hsstatus, hout⟩ := execs_storeTrapFrame shift hw'
  refine ⟨t, hrun, hpriv, hcsr .satp (by decide), ?_, hout⟩
  refine Context.ext ?_ ?_ ?_ (funext fun r => ?_)
  · simp only [frameContext, hsepc]
    rfl
  · simp only [frameContext, hsstatus]
    exact retPriv_trapStatus p.2.priv (p.2.csr .sstatus)
  · simp only [frameContext, hsstatus]
    exact sie_retStatus_trapStatus p.2.priv (p.2.csr .sstatus)
  · by_cases hr : r = 0
    · subst hr
      rfl
    · refine (if_neg hr).trans ((hregs r hr).trans ?_)
      exact (if_neg hr).symm

theorem execs_loadCause (shift : BitVec 64) (hw : Window mmu s frameAddr frame frameWords) :
    ∃ t, execs mmu shift loadCause s = some t ∧ t.priv = s.priv ∧ t.mem = s.mem ∧
      t.get 1 = frameAddr ∧ t.csr .satp = s.csr .satp ∧ t.csr .sepc = s.mem (wordAddr frame 32) ∧
      t.csr .sstatus = s.mem (wordAddr frame 34) := by
  have hw1 : Window mmu (s.set 1 frameAddr) frameAddr frame frameWords :=
    hw.keep rfl rfl (.refl _ _ _)
  have h1 : (s.set 1 frameAddr).get 1 = frameAddr := Hart.get_set_self _ _ (by decide)
  have hstart : execs mmu shift [.li 1 frameAddr] s = some (s.set 1 frameAddr) := rfl
  obtain ⟨reg, hrun, hin, hout⟩ := execs_ldFrom shift 1 [10, 11, 12, 13] 31 hw1 h1 (by decide)
    (by decide) (by decide)
  refine ⟨(({ s with reg := reg } : Hart).setCsr .sepc (reg 11)).setCsr .sstatus (reg 13), ?_, rfl,
    rfl, ?_, rfl, hin 1 11 rfl, hin 3 13 rfl⟩
  · rw [loadCause, execs_append, execs_append, hstart, Option.bind_eq_bind, Option.bind_some, hrun]
    rfl
  · exact (hout 1 (by decide)).trans h1

theorem execs_loadRegs (shift : BitVec 64) (hw : Window mmu s frameAddr frame frameWords)
    (h1 : s.get 1 = frameAddr) :
    ∃ t, execs mmu shift loadRegs s = some t ∧ t.priv = s.priv ∧ t.mem = s.mem ∧ t.csr = s.csr ∧
      ∀ r : Reg, r ≠ 0 → t.reg r = s.mem (wordAddr frame (r.val - 1)) := by
  obtain ⟨reg, hrun, hin, hout⟩ := execs_ldFrom shift 1 upperRegs 1 hw h1 (by decide)
    (by decide) (by decide)
  have hw1 : Window mmu { s with reg := reg } frameAddr frame frameWords :=
    hw.keep rfl rfl (.refl _ _ _)
  have hword : ({ s with reg := reg } : Hart).word mmu .load (reg 1 + 0) =
      some (wordAddr frame 0) := by
    rw [(hout 1 (by decide)).trans h1]
    exact hw1.word (show 0 < frameWords by decide) (show Access.load ≠ .fetch by decide)
  have hlast : exec mmu shift { s with reg := reg } (.ld 1 0 1) =
      some (({ s with reg := reg } : Hart).set 1 (s.mem (wordAddr frame 0))) := by
    rw [exec, show ({ s with reg := reg } : Hart).get 1 = reg 1 from rfl, hword]
    rfl
  refine ⟨({ s with reg := reg } : Hart).set 1 (s.mem (wordAddr frame 0)), ?_, rfl, rfl, rfl,
    fun r hr => ?_⟩
  · rw [loadRegs, execs_append, hrun, Option.bind_eq_bind, Option.bind_some, execs_cons, hlast]
    rfl
  · by_cases hr1 : r = 1
    · subst hr1
      exact Function.update_self 1 (s.mem (wordAddr frame 0)) reg
    · have hle := two_le_of_ne hr hr1
      refine (Function.update_of_ne hr1 _ _).trans ((hin _ r (getElem?_upperRegs hle)).trans ?_)
      rw [show 1 + (r.val - 2) = r.val - 1 by omega]

/-- A return from a trap continues with the context that the frame holds. -/
theorem loadTrapFrame_context (shift : BitVec 64) (hw : Window mmu s frameAddr frame frameWords) :
    ∃ t, execs mmu shift loadTrapFrame s = some t ∧ t.mem = s.mem ∧
      t.csr .satp = s.csr .satp ∧ context (sret t) = frameContext s.mem frame := by
  obtain ⟨t1, hrun1, hpriv1, hmem1, h1, hsatp, hsepc, hsstatus⟩ := execs_loadCause shift hw
  have hw1 : Window mmu t1 frameAddr frame frameWords :=
    hw.keep hpriv1 hsatp (hmem1 ▸ .refl _ _ _)
  obtain ⟨t2, hrun2, hpriv2, hmem2, hcsr2, hregs⟩ := execs_loadRegs shift hw1 h1
  refine ⟨t2, ?_, hmem2.trans hmem1, by rw [hcsr2, hsatp], ?_⟩
  · rw [loadTrapFrame, execs_append, hrun1, Option.bind_eq_bind, Option.bind_some, hrun2]
  refine Context.ext ?_ ?_ ?_ (funext fun r => ?_)
  · exact (congrFun hcsr2 .sepc).trans hsepc
  · exact congrArg retPriv ((congrFun hcsr2 .sstatus).trans hsstatus)
  · simp only [context, sret, Function.update_self, frameContext, hcsr2, hsstatus]
  · by_cases hr : r = 0
    · subst hr
      rfl
    · refine (if_neg hr).trans ((hregs r hr).trans ?_)
      rw [hmem1]
      exact (if_neg hr).symm

end Macros

/-! ## Processes and their frames -/

/-- Any number of processes on a hart. `saved` is what their trap frames are to hold. -/
structure ContextRun where
  pc : BitVec 64
  hart : Hart
  current : ℕ
  /-- A trap is handled with interrupts disabled, from `STORE_TRAP_FRAME` to `LOAD_TRAP_FRAME`. -/
  inTrap : Bool
  frames : ℕ → Option (FrameKind → BitVec 64)
  trapState : ℕ → TrapState
  saved : ℕ → FrameKind → Option Context

/-- What happens. -/
inductive ContextEvent
  /-- The process or a handler runs. -/
  | run
  /-- A trap is taken and saved. -/
  | trap (cause tval : BitVec 64)
  /-- `trap_data_set_response`. -/
  | setResponse (returnReg : BitVec 64)
  /-- `trap_data_iter_instruction`. -/
  | iterInstruction
  /-- `handle_async_trap` maps its frame and enables interrupts. -/
  | asyncEnter (code : TrapCode) (readingUserspace : Bool)
  /-- `handle_async_trap` disables interrupts and maps the frame of before. -/
  | asyncLeave
  /-- `context_change_process`. -/
  | changeProcess (proc : ℕ)
  /-- `new_blank_process` and `trapframe_user_init`. -/
  | create (proc : ℕ) (start : BitVec 64)
  /-- `process_cleanup`. -/
  | cleanup (proc : ℕ)
  /-- `LOAD_TRAP_FRAME` and `sret`. -/
  | resume

/-- Two frames have no word in common. -/
def FrameApart (a b : BitVec 64) : Prop :=
  ∀ j < frameWords, ∀ k < frameWords, wordAddr a j ≠ wordAddr b k

/-- The context that `trapframe_user_init` gives a frame of zeros. -/
def startContext (start : BitVec 64) : Context where
  pc := start
  priv := .user
  sie := false
  reg _ := 0

/-- A frame of zeros after `trapframe_user_init`. -/
def StartFrame (m : Memory) (frame start : BitVec 64) : Prop :=
  ∀ j < 35, m (wordAddr frame j) = if j = 32 then start else 0

namespace ContextRun

variable (mmu : Mmu) (shift : BitVec 64)

/-- The frames that hold a context are in the memory `m` as before. -/
def Keeps (s : ContextRun) (m : Memory) : Prop :=
  ∀ p fr k, s.frames p = some fr → s.saved p k ≠ none →
    ∀ j < frameWords, m (wordAddr (fr k) j) = s.hart.mem (wordAddr (fr k) j)

/-- `TRAPFRAME_ADDRESS` is mapped to the frame of the process's state. -/
def MapsFrame (s : ContextRun) (hart : Hart) (p : ℕ) : Prop :=
  ∃ fr k, s.frames p = some fr ∧ (s.trapState p).frame = some k ∧ FrameWindow mmu hart (fr k)

/-- The context that a frame is to hold. -/
def save (s : ContextRun) (p : ℕ) (k : FrameKind) (c : Option Context) : ContextRun :=
  { s with saved := fun q l => if q = p ∧ l = k then c else s.saved q l }

/-- The steps. Other code than the one that is named leaves the frames that hold a context alone. -/
inductive Step (s : ContextRun) : ContextEvent → ContextRun → Prop
  | run {pc : BitVec 64} {hart : Hart} : (s.inTrap = true → hart.priv = .supervisor) →
    s.Keeps hart.mem → s.MapsFrame mmu hart s.current →
    Step s .run { s with pc := pc, hart := hart }
  | trap {cause tval : BitVec 64} {hart : Hart} {k : FrameKind} : s.inTrap = false →
    (s.trapState s.current).frame = some k →
    execs mmu shift storeTrapFrame (takeTrap cause tval (s.pc, s.hart)).2 = some hart →
    Step s (.trap cause tval) ({ s with
      pc := (takeTrap cause tval (s.pc, s.hart)).1
      hart := hart
      inTrap := true }.save s.current k (some (context (s.pc, s.hart))))
  | setResponse {returnReg : BitVec 64} {fr : FrameKind → BitVec 64} {k : FrameKind}
    {c : Context} : s.inTrap = true → s.frames s.current = some fr →
    (s.trapState s.current).frame = some k → s.saved s.current k = some c →
    Step s (.setResponse returnReg) ({ s with
      hart := s.hart.setMem (wordAddr (fr k) 9) returnReg }.save s.current k
        (some { c with reg := Function.update c.reg 10 returnReg }))
  | iterInstruction {fr : FrameKind → BitVec 64} {k : FrameKind} {c : Context} :
    s.inTrap = true → s.frames s.current = some fr →
    (s.trapState s.current).frame = some k → s.saved s.current k = some c →
    Step s .iterInstruction ({ s with
      hart := s.hart.setMem (wordAddr (fr k) 32) (s.hart.mem (wordAddr (fr k) 32) + 4) }.save
        s.current k (some { c with pc := c.pc + 4 }))
  | asyncEnter {code : TrapCode} {reading : Bool} {f : FrameKind} {st : TrapState}
    {fr : FrameKind → BitVec 64} {pc : BitVec 64} {hart : Hart} : s.inTrap = true →
    Toastium.asyncEnter (s.trapState s.current) code reading = .ok (f, st) →
    s.frames s.current = some fr → FrameWindow mmu hart (fr f) → s.Keeps hart.mem →
    Step s (.asyncEnter code reading) { s with
      pc := pc
      hart := hart
      inTrap := false
      trapState := Function.update s.trapState s.current st }
  | asyncLeave {code : TrapCode} {reading : Bool} {past st : TrapState} {f g : FrameKind}
    {fr : FrameKind → BitVec 64} {pc : BitVec 64} {hart : Hart} : s.inTrap = false →
    Toastium.asyncEnter past code reading = .ok (g, s.trapState s.current) →
    Toastium.asyncLeave past = .ok (f, st) → s.frames s.current = some fr →
    hart.priv = .supervisor → FrameWindow mmu hart (fr f) → s.Keeps hart.mem →
    Step s .asyncLeave { s with
      pc := pc
      hart := hart
      inTrap := true
      trapState := Function.update s.trapState s.current st }
  | changeProcess {proc : ℕ} {pc : BitVec 64} {hart : Hart} : s.inTrap = true →
    hart.priv = .supervisor → s.MapsFrame mmu hart proc → s.Keeps hart.mem →
    Step s (.changeProcess proc) { s with pc := pc, hart := hart, current := proc }
  | create {proc : ℕ} {start pc : BitVec 64} {fr : FrameKind → BitVec 64} {hart : Hart} :
    s.frames proc = none → (∀ k l, k ≠ l → FrameApart (fr k) (fr l)) →
    (∀ q gr k l, s.frames q = some gr → FrameApart (fr k) (gr l) ∧ FrameApart (gr l) (fr k)) →
    (s.inTrap = true → hart.priv = .supervisor) → s.MapsFrame mmu hart s.current →
    s.Keeps hart.mem → StartFrame hart.mem (fr .userspace) start →
    Step s (.create proc start) ({ s with
      pc := pc
      hart := hart
      frames := Function.update s.frames proc (some fr)
      trapState := Function.update s.trapState proc .process }.save proc .userspace
        (some (startContext start)))
  | cleanup {proc : ℕ} : proc ≠ s.current →
    Step s (.cleanup proc) { s with
      frames := Function.update s.frames proc none
      saved := fun q l => if q = proc then none else s.saved q l }
  | resume {k : FrameKind} {hart : Hart} : s.inTrap = true →
    (s.trapState s.current).frame = some k → execs mmu shift loadTrapFrame s.hart = some hart →
    Step s .resume ({ s with
      pc := (sret hart).1
      hart := (sret hart).2
      inTrap := false }.save s.current k none)

/-- The end of the boot : one process is created, and its frame is about to be loaded. -/
def Start (s : ContextRun) : Prop :=
  ∃ fr start, s.inTrap = true ∧ s.hart.priv = .supervisor ∧
    s.frames = Function.update (fun _ => none) s.current (some fr) ∧
    (∀ k l, k ≠ l → FrameApart (fr k) (fr l)) ∧ s.trapState s.current = .process ∧
    FrameWindow mmu s.hart (fr .userspace) ∧ StartFrame s.hart.mem (fr .userspace) start ∧
    s.saved = fun q l => if q = s.current ∧ l = .userspace then some (startContext start) else none

end ContextRun

/-! ## The contexts along runs -/

/-- The frames that hold the contexts which the handlers of a process have interrupted. -/
def TrapState.outer : TrapState → FrameKind → Bool
  | interruptableTrap, .userspace => true
  | readUserspace, .userspace => true
  | readUserspace, .kernelspace => true
  | _, _ => false

/-- A handler that starts interrupts the context of the frame that was mapped. -/
theorem outer_asyncEnter {past st : TrapState} {code : TrapCode} {reading : Bool} {f : FrameKind}
    (h : asyncEnter past code reading = .ok (f, st)) (k : FrameKind) :
    st.outer k = true ↔ past.outer k = true ∨ past.frame = some k := by
  cases past with
  | process =>
    cases h
    cases k <;> decide
  | uninterruptableTrap => cases h
  | interruptableTrap =>
    unfold asyncEnter at h
    split_ifs at h
    cases h
    cases k <;> decide
  | readUserspace => cases h

/-- The frame of a state holds no context that is interrupted in it. -/
theorem TrapState.outer_frame {st : TrapState} {k : FrameKind} (h : st.frame = some k) :
    st.outer k = false := by
  cases st with
  | uninterruptableTrap => cases h
  | _ =>
    cases h
    rfl

theorem frameContext_congr {m m' : Memory} {frame : BitVec 64}
    (h : ∀ j < frameWords, m' (wordAddr frame j) = m (wordAddr frame j)) :
    frameContext m' frame = frameContext m frame := by
  have hreg : ∀ r : Reg, r.val - 1 < frameWords := fun r => by
    have := r.isLt
    unfold frameWords
    omega
  simp only [frameContext, h 32 (by decide), h 34 (by decide), h _ (hreg _)]

theorem frameContext_start {m : Memory} {frame start : BitVec 64} (h : StartFrame m frame start) :
    frameContext m frame = startContext start := by
  have hstatus : m (wordAddr frame 34) = 0 := (h 34 (by decide)).trans (if_neg (by decide))
  refine Context.ext (h 32 (by decide)) ?_ ?_ (funext fun r => ?_)
  · simp only [frameContext, hstatus]
    rfl
  · simp only [frameContext, hstatus]
    rfl
  · have hlt := r.isLt
    have hword := h (r.val - 1) (by omega)
    rw [if_neg (by omega)] at hword
    simp only [frameContext, hword, startContext, ite_self]

theorem FrameApart.of_agreeOff {a b : BitVec 64} {m m' : Memory} (h : FrameApart a b)
    (hm : SameOff b 35 m m') :
    ∀ j < frameWords, m' (wordAddr a j) = m (wordAddr a j) := fun j hj =>
  hm _ fun k hk => h j hj k (by unfold frameWords; omega)

/-- The frames are apart and hold what they are to hold, and the one of the state of the running
process is mapped. -/
structure ContextInv (mmu : Mmu) (s : ContextRun) : Prop where
  maps : s.MapsFrame mmu s.hart s.current
  priv : s.inTrap = true → s.hart.priv = .supervisor
  apart : ∀ p q fr gr k l, s.frames p = some fr → s.frames q = some gr → p ≠ q ∨ k ≠ l →
    FrameApart (fr k) (gr l)
  live : ∀ p k, s.saved p k ≠ none → s.frames p ≠ none
  saved_iff : ∀ p k, s.frames p ≠ none → (s.saved p k ≠ none ↔ (s.trapState p).outer k = true ∨
    (s.trapState p).frame = some k ∧ (p ≠ s.current ∨ s.inTrap = true))
  holds : ∀ p fr k c, s.frames p = some fr → s.saved p k = some c →
    frameContext s.hart.mem (fr k) = c

namespace ContextInv

variable {mmu : Mmu} {shift : BitVec 64} {s : ContextRun}

/-- The contexts, when the frames that hold one are as before. -/
theorem holds_of_keeps (hi : ContextInv mmu s) {m : Memory} (hk : s.Keeps m) :
    ∀ p fr k c, s.frames p = some fr → s.saved p k = some c → frameContext m (fr k) = c :=
  fun p fr k c hfr hc => by
    rw [frameContext_congr (hk p fr k hfr (by rw [hc]; exact Option.some_ne_none c))]
    exact hi.holds p fr k c hfr hc

/-- The contexts, when the frame of the running process has another one. -/
theorem holds_save (hi : ContextInv mmu s) {fr : FrameKind → BitVec 64} {k : FrameKind}
    {m : Memory} {c : Context} (hfr : s.frames s.current = some fr)
    (hm : SameOff (fr k) 35 s.hart.mem m) (hc : frameContext m (fr k) = c) :
    ∀ q gr l d, s.frames q = some gr →
      (if q = s.current ∧ l = k then some c else s.saved q l) = some d →
      frameContext m (gr l) = d := by
  intro q gr l d hgr hd
  split_ifs at hd with hql
  · obtain ⟨rfl, rfl⟩ := hql
    rw [hfr] at hgr
    cases hgr
    cases hd
    exact hc
  · have hne : q ≠ s.current ∨ l ≠ k := by
      by_contra hnot
      push Not at hnot
      exact hql hnot
    rw [frameContext_congr ((hi.apart q _ gr fr l k hgr hfr hne).of_agreeOff hm)]
    exact hi.holds q gr l d hgr hd

theorem of_start (h : ContextRun.Start mmu s) : ContextInv mmu s := by
  obtain ⟨fr, start, hin, hpriv, hframes, hapart, hstate, hwin, hstart, hsaved⟩ := h
  have hcur : s.frames s.current = some fr := by rw [hframes, Function.update_self]
  have honly : ∀ p gr, s.frames p = some gr → p = s.current ∧ gr = fr := fun p gr hgr => by
    rw [hframes, Function.update_apply] at hgr
    split_ifs at hgr with hp
    · exact ⟨hp, (Option.some.inj hgr).symm⟩
  refine ⟨⟨fr, .userspace, hcur, by rw [hstate]; rfl, hwin⟩, fun _ => hpriv, ?_, ?_, ?_, ?_⟩
  · intro p q gr gr' k l hp hq hne
    obtain ⟨rfl, rfl⟩ := honly p gr hp
    obtain ⟨rfl, rfl⟩ := honly q gr' hq
    exact hapart k l (hne.resolve_left fun h => h rfl)
  · intro p k hne
    rw [hsaved] at hne
    by_cases hp : p = s.current ∧ k = .userspace
    · rw [hp.1, hcur]
      exact Option.some_ne_none fr
    · exact absurd (if_neg hp) hne
  · intro p k hne
    obtain ⟨gr, hgr⟩ := Option.ne_none_iff_exists'.mp hne
    obtain ⟨rfl, rfl⟩ := honly p gr hgr
    rw [hsaved, hstate, hin]
    cases k <;> simp [TrapState.outer, TrapState.frame]
  · intro p gr k c hgr hc
    obtain ⟨rfl, rfl⟩ := honly p gr hgr
    simp only [hsaved] at hc
    split_ifs at hc with hk
    obtain ⟨-, rfl⟩ := hk
    cases hc
    exact frameContext_start hstart

/-- Which frames hold a context, when that changes for the one of the running process. -/
theorem saved_save (hi : ContextInv mmu s) {k : FrameKind}
    (hk : (s.trapState s.current).frame = some k) {c : Option Context} {b : Bool}
    (hb : c.isSome = b) (p : ℕ) (l : FrameKind) (hp : s.frames p ≠ none) :
    (if p = s.current ∧ l = k then c else s.saved p l) ≠ none ↔ (s.trapState p).outer l = true ∨
      (s.trapState p).frame = some l ∧ (p ≠ s.current ∨ b = true) := by
  subst hb
  by_cases hpl : p = s.current ∧ l = k
  · obtain ⟨rfl, rfl⟩ := hpl
    rw [if_pos ⟨rfl, rfl⟩, TrapState.outer_frame hk, hk, Option.isSome_iff_ne_none]
    simp
  · rw [if_neg hpl, hi.saved_iff p l hp]
    refine or_congr_right (and_congr_right fun hl => ?_)
    have hne : p ≠ s.current := fun h => hpl ⟨h, by
      rw [h, hk] at hl
      exact (Option.some.inj hl).symm⟩
    simp only [hne, ne_eq, not_false_eq_true, true_or]

theorem live_save (hi : ContextInv mmu s) {fr : FrameKind → BitVec 64}
    (hfr : s.frames s.current = some fr) (k : FrameKind) (c : Option Context) (p : ℕ)
    (l : FrameKind) (h : (if p = s.current ∧ l = k then c else s.saved p l) ≠ none) :
    s.frames p ≠ none := by
  split_ifs at h with hp
  · rw [hp.1, hfr]
    exact Option.some_ne_none fr
  · exact hi.live p l h

/-- The frame of the running process is mapped as before where only words of it have changed. -/
theorem maps_keep (hi : ContextInv mmu s) {fr : FrameKind → BitVec 64} {k : FrameKind} {t : Hart}
    (hfr : s.frames s.current = some fr) (hk : (s.trapState s.current).frame = some k)
    (hsatp : t.csr .satp = s.hart.csr .satp) (hm : SameOff (fr k) 35 s.hart.mem t.mem) :
    s.MapsFrame mmu t s.current := by
  obtain ⟨gr, l, hgr, hl, hwin⟩ := hi.maps
  rw [hfr] at hgr
  rw [hk] at hl
  cases hgr
  cases hl
  exact ⟨fr, k, hfr, hk, hwin.keep rfl hsatp fun x hx => hm x fun j hj =>
    hx j (by unfold frameWords; omega)⟩

theorem trap (hi : ContextInv mmu s) {cause tval : BitVec 64} {hart : Hart} {k : FrameKind}
    (hk : (s.trapState s.current).frame = some k)
    (hrun : execs mmu shift storeTrapFrame (takeTrap cause tval (s.pc, s.hart)).2 = some hart) :
    ContextInv mmu ({ s with
      pc := (takeTrap cause tval (s.pc, s.hart)).1
      hart := hart
      inTrap := true }.save s.current k (some (context (s.pc, s.hart)))) := by
  obtain ⟨fr, l, hfr, hl, hwin⟩ := hi.maps
  obtain rfl : k = l := Option.some.inj (hk.symm.trans hl)
  obtain ⟨t, ht, hpriv, hsatp, hctx, hm⟩ := storeTrapFrame_context shift cause tval
    (p := (s.pc, s.hart)) hwin
  rw [hrun] at ht
  cases ht
  exact {
    maps := hi.maps_keep hfr hk hsatp hm
    priv := fun _ => hpriv
    apart := hi.apart
    live := hi.live_save hfr k _
    saved_iff := hi.saved_save hk rfl
    holds := hi.holds_save hfr hm hctx }

/-- A word of the mapped frame is written, and the context it is to hold is changed with it. -/
theorem write (hi : ContextInv mmu s) {fr : FrameKind → BitVec 64} {k : FrameKind} {j : ℕ}
    {v : BitVec 64} {c : Context} (hin : s.inTrap = true) (hfr : s.frames s.current = some fr)
    (hk : (s.trapState s.current).frame = some k) (hj : j < 35)
    (hc : frameContext (Function.update s.hart.mem (wordAddr (fr k) j) v) (fr k) = c) :
    ContextInv mmu ({ s with
      hart := s.hart.setMem (wordAddr (fr k) j) v }.save s.current k (some c)) where
  maps := hi.maps_keep hfr hk rfl (.update _ hj _ _)
  priv := hi.priv
  apart := hi.apart
  live := hi.live_save hfr k _
  saved_iff := hi.saved_save hk hin.symm
  holds := hi.holds_save hfr (.update _ hj _ _) hc

theorem frameContext_setResponse {m : Memory} {frame returnReg : BitVec 64} :
    frameContext (Function.update m (wordAddr frame 9) returnReg) frame =
      { frameContext m frame with
        reg := Function.update (frameContext m frame).reg 10 returnReg } := by
  have hne : ∀ {j : ℕ}, j < frameWords → j ≠ 9 →
      Function.update m (wordAddr frame 9) returnReg (wordAddr frame j) = m (wordAddr frame j) :=
    fun hj h => Function.update_of_ne (frameWord_ne hj (by decide) h) _ _
  refine Context.ext ?_ ?_ ?_ (funext fun r => ?_)
  · exact hne (by decide) (by decide)
  · exact congrArg retPriv (hne (by decide) (by decide))
  · exact congrArg (fun w => (retStatus w).getLsbD sie) (hne (by decide) (by decide))
  · by_cases hr : r = 10
    · subst hr
      simp only [frameContext, Function.update_self]
      exact Function.update_self _ _ _
    · have hlt := r.isLt
      have hval : r.val ≠ 10 := fun h => hr (Fin.ext h)
      simp only [frameContext, Function.update_of_ne hr]
      by_cases hr0 : r = 0
      · rw [if_pos hr0, if_pos hr0]
      · rw [if_neg hr0, if_neg hr0]
        exact hne (by unfold frameWords; omega) (by omega)

theorem frameContext_iterInstruction {m : Memory} {frame : BitVec 64} :
    frameContext (Function.update m (wordAddr frame 32) (m (wordAddr frame 32) + 4)) frame =
      { frameContext m frame with pc := (frameContext m frame).pc + 4 } := by
  have hne : ∀ {j : ℕ}, j < frameWords → j ≠ 32 →
      Function.update m (wordAddr frame 32) (m (wordAddr frame 32) + 4) (wordAddr frame j) =
        m (wordAddr frame j) :=
    fun hj h => Function.update_of_ne (frameWord_ne hj (by decide) h) _ _
  refine Context.ext ?_ ?_ ?_ (funext fun r => ?_)
  · exact Function.update_self _ _ _
  · exact congrArg retPriv (hne (by decide) (by decide))
  · exact congrArg (fun w => (retStatus w).getLsbD sie) (hne (by decide) (by decide))
  · have hlt := r.isLt
    exact congrArg (fun v => if r = 0 then 0 else v) (hne (by unfold frameWords; omega) (by omega))

theorem asyncEnter (hi : ContextInv mmu s) {code : TrapCode} {reading : Bool} {f : FrameKind}
    {st : TrapState} {fr : FrameKind → BitVec 64} {pc : BitVec 64} {hart : Hart}
    (hin : s.inTrap = true)
    (h : Toastium.asyncEnter (s.trapState s.current) code reading = .ok (f, st))
    (hfr : s.frames s.current = some fr) (hwin : FrameWindow mmu hart (fr f))
    (hk : s.Keeps hart.mem) :
    ContextInv mmu { s with
      pc := pc
      hart := hart
      inTrap := false
      trapState := Function.update s.trapState s.current st } where
  maps := ⟨fr, f, hfr, by
    simp only [Function.update_self]
    exact asyncEnter_frame h, hwin⟩
  priv := fun hnot => absurd hnot Bool.false_ne_true
  apart := hi.apart
  live := hi.live
  saved_iff p l hp := by
    simp only [Function.update_apply, Bool.false_eq_true, or_false]
    rw [hi.saved_iff p l hp]
    by_cases hpc : p = s.current
    · subst hpc
      simp [outer_asyncEnter h, hin]
    · simp [hpc]
  holds := hi.holds_of_keeps hk

theorem asyncLeave (hi : ContextInv mmu s) {code : TrapCode} {reading : Bool}
    {past st : TrapState} {f g : FrameKind} {fr : FrameKind → BitVec 64} {pc : BitVec 64}
    {hart : Hart} (hin : s.inTrap = false)
    (h : Toastium.asyncEnter past code reading = .ok (g, s.trapState s.current))
    (hleave : Toastium.asyncLeave past = .ok (f, st)) (hfr : s.frames s.current = some fr)
    (hpriv : hart.priv = .supervisor) (hwin : FrameWindow mmu hart (fr f))
    (hk : s.Keeps hart.mem) :
    ContextInv mmu { s with
      pc := pc
      hart := hart
      inTrap := true
      trapState := Function.update s.trapState s.current st } := by
  obtain ⟨rfl, hf⟩ := asyncLeave_frame hleave
  exact {
    maps := ⟨fr, f, hfr, by
      simp only [Function.update_self]
      exact hf, hwin⟩
    priv := fun _ => hpriv
    apart := hi.apart
    live := hi.live
    saved_iff := fun p l hp => by
      simp only [Function.update_apply, or_true, and_true]
      rw [hi.saved_iff p l hp]
      by_cases hpc : p = s.current
      · subst hpc
        simp [outer_asyncEnter h, hin]
      · simp [hpc]
    holds := hi.holds_of_keeps hk }

theorem create (hi : ContextInv mmu s) {proc : ℕ} {start pc : BitVec 64}
    {fr : FrameKind → BitVec 64} {hart : Hart} (hnew : s.frames proc = none)
    (hself : ∀ k l, k ≠ l → FrameApart (fr k) (fr l))
    (hother : ∀ q gr k l, s.frames q = some gr →
      FrameApart (fr k) (gr l) ∧ FrameApart (gr l) (fr k))
    (hpriv : s.inTrap = true → hart.priv = .supervisor) (hmaps : s.MapsFrame mmu hart s.current)
    (hk : s.Keeps hart.mem) (hstart : StartFrame hart.mem (fr .userspace) start) :
    ContextInv mmu ({ s with
      pc := pc
      hart := hart
      frames := Function.update s.frames proc (some fr)
      trapState := Function.update s.trapState proc .process }.save proc .userspace
        (some (startContext start))) := by
  obtain ⟨gr, k, hgr, hgk, hwin⟩ := hmaps
  have hne : s.current ≠ proc := fun h => by
    rw [h, hnew] at hgr
    cases hgr
  have hblank : ∀ l, s.saved proc l = none := fun l => by
    by_contra h
    exact hi.live proc l h hnew
  refine ⟨⟨gr, k, ?_, ?_, hwin⟩, hpriv, ?_, ?_, ?_, ?_⟩
  · exact (Function.update_of_ne hne _ _).trans hgr
  · simp only [ContextRun.save, Function.update_of_ne hne]
    exact hgk
  · intro p q pr qr k l hp hq hpq
    simp only [ContextRun.save, Function.update_apply] at hp hq
    split_ifs at hp hq with h1 h2 h2
    · cases hp
      cases hq
      exact hself k l (hpq.resolve_left fun h => h (h1.trans h2.symm))
    · cases hp
      exact (hother q qr k l hq).1
    · cases hq
      exact (hother p pr l k hp).2
    · exact hi.apart p q pr qr k l hp hq hpq
  · intro p l h
    simp only [ContextRun.save, Function.update_apply] at h ⊢
    split_ifs with hp
    · exact Option.some_ne_none fr
    · rw [if_neg fun hpl => hp hpl.1] at h
      exact hi.live p l h
  · intro p l hp
    simp only [ContextRun.save, Function.update_apply] at hp ⊢
    by_cases hpp : p = proc
    · subst hpp
      rw [if_pos rfl, hblank l]
      cases l <;> simp [TrapState.outer, TrapState.frame, hne.symm]
    · rw [if_neg hpp] at hp ⊢
      rw [if_neg fun hpl => hpp hpl.1]
      exact hi.saved_iff p l hp
  · intro p pr l c hp hc
    simp only [ContextRun.save, Function.update_apply] at hp hc
    by_cases hpp : p = proc
    · subst hpp
      rw [if_pos rfl] at hp
      cases hp
      rw [hblank l] at hc
      split_ifs at hc with hl
      obtain ⟨-, rfl⟩ := hl
      cases hc
      exact frameContext_start hstart
    · rw [if_neg hpp] at hp
      rw [if_neg fun hpl => hpp hpl.1] at hc
      exact hi.holds_of_keeps hk p pr l c hp hc

theorem cleanup (hi : ContextInv mmu s) {proc : ℕ} (hne : proc ≠ s.current) :
    ContextInv mmu { s with
      frames := Function.update s.frames proc none
      saved := fun q l => if q = proc then none else s.saved q l } := by
  have hframe : ∀ {p fr}, Function.update s.frames proc none p = some fr →
      p ≠ proc ∧ s.frames p = some fr := fun {p fr} h => by
    rw [Function.update_apply] at h
    split_ifs at h with hp
    exact ⟨hp, h⟩
  obtain ⟨fr, k, hfr, hk, hwin⟩ := hi.maps
  refine ⟨⟨fr, k, (Function.update_of_ne hne.symm _ _).trans hfr, hk, hwin⟩, hi.priv, ?_, ?_, ?_,
    ?_⟩
  · intro p q pr qr k l hp hq
    exact hi.apart p q pr qr k l (hframe hp).2 (hframe hq).2
  · intro p l h
    simp only at h ⊢
    split_ifs at h with hp
    · exact absurd rfl h
    · rw [Function.update_of_ne hp]
      exact hi.live p l h
  · intro p l h
    obtain ⟨pr, hpr⟩ := Option.ne_none_iff_exists'.mp h
    obtain ⟨hp, hpr⟩ := hframe hpr
    simp only [if_neg hp]
    exact hi.saved_iff p l (by rw [hpr]; exact Option.some_ne_none pr)
  · intro p pr l c hp hc
    obtain ⟨hpp, hp⟩ := hframe hp
    simp only [if_neg hpp] at hc
    exact hi.holds p pr l c hp hc

theorem resume (hi : ContextInv mmu s) {k : FrameKind} {hart : Hart} (hin : s.inTrap = true)
    (hk : (s.trapState s.current).frame = some k)
    (hrun : execs mmu shift loadTrapFrame s.hart = some hart) :
    ContextInv mmu ({ s with
      pc := (sret hart).1
      hart := (sret hart).2
      inTrap := false }.save s.current k none) := by
  obtain ⟨fr, l, hfr, hl, hwin⟩ := hi.maps
  obtain ⟨t, ht, hmem, hsatp, -⟩ := loadTrapFrame_context shift
    (hwin.keep (hi.priv hin) rfl (.refl _ _ _))
  rw [hrun] at ht
  cases ht
  refine ⟨?_, fun hnot => absurd hnot Bool.false_ne_true, hi.apart, hi.live_save hfr k none,
    hi.saved_save hk rfl, ?_⟩
  · exact hi.maps_keep hfr hk hsatp (hmem ▸ .refl _ _ _)
  · intro p pr l c hp hc
    simp only [ContextRun.save, sret, hmem] at hc ⊢
    split_ifs at hc
    exact hi.holds p pr l c hp hc

/-- What a step preserves. -/
theorem step (hi : ContextInv mmu s) {e : ContextEvent} {s' : ContextRun}
    (h : ContextRun.Step mmu shift s e s') : ContextInv mmu s' := by
  cases h with
  | run hpriv hk hmaps =>
    exact ⟨hmaps, hpriv, hi.apart, hi.live, hi.saved_iff, hi.holds_of_keeps hk⟩
  | trap hin hk hrun => exact hi.trap hk hrun
  | setResponse hin hfr hk hc =>
    refine hi.write hin hfr hk (by decide) ?_
    rw [frameContext_setResponse, hi.holds _ _ _ _ hfr hc]
  | iterInstruction hin hfr hk hc =>
    refine hi.write hin hfr hk (by decide) ?_
    rw [frameContext_iterInstruction, hi.holds _ _ _ _ hfr hc]
  | asyncEnter hin hst hfr hwin hk => exact hi.asyncEnter hin hst hfr hwin hk
  | asyncLeave hin hst hleave hfr hpriv hwin hk =>
    exact hi.asyncLeave hin hst hleave hfr hpriv hwin hk
  | changeProcess hin hpriv hmaps hk =>
    refine ⟨hmaps, fun _ => hpriv, hi.apart, hi.live, fun p l hp => ?_, hi.holds_of_keeps hk⟩
    simpa only [hin, or_true, and_true] using hi.saved_iff p l hp
  | create hnew hself hother hpriv hmaps hk hstart =>
    exact hi.create hnew hself hother hpriv hmaps hk hstart
  | cleanup hne => exact hi.cleanup hne
  | resume hin hk hrun => exact hi.resume hin hk hrun

end ContextInv

/-- Along every run each frame holds the context it is to hold, and a return from a trap continues
with the one of the process that is then running. -/
theorem contexts_restored {mmu : Mmu} {shift : BitVec 64} {s : ContextRun}
    (h : Reach (ContextRun.Start mmu) (ContextRun.Step mmu shift) s) :
    (∀ p fr k c, s.frames p = some fr → s.saved p k = some c →
      frameContext s.hart.mem (fr k) = c) ∧
    (s.inTrap = true → ∃ k c t, (s.trapState s.current).frame = some k ∧
      s.saved s.current k = some c ∧ execs mmu shift loadTrapFrame s.hart = some t ∧
      context (sret t) = c) := by
  have hi : ContextInv mmu s := Reach.invariant (ContextInv mmu) (fun _ => ContextInv.of_start)
    (fun _ _ _ hi => hi.step) h
  refine ⟨hi.holds, fun hin => ?_⟩
  obtain ⟨fr, k, hfr, hk, hwin⟩ := hi.maps
  have hsaved := (hi.saved_iff s.current k (by rw [hfr]; exact Option.some_ne_none fr)).mpr
    (.inr ⟨hk, .inr hin⟩)
  obtain ⟨c, hc⟩ := Option.ne_none_iff_exists'.mp hsaved
  obtain ⟨t, ht, -, -, hctx⟩ := loadTrapFrame_context shift
    (hwin.keep (hi.priv hin) rfl (.refl _ _ _))
  exact ⟨k, c, t, hk, hc, ht, hctx.trans (hi.holds _ fr k c hfr hc)⟩

/-- The frames of the first process, of which one is where it is mapped. -/
def bootFrames : FrameKind → BitVec 64
  | .userspace => frameAddr
  | .kernelspace => 0x1000
  | .pageFault => 0x2000

/-- A hart that is about to enter the first process, on a machine without translation. -/
def bootRun : ContextRun where
  pc := 0
  hart := {
    priv := .supervisor
    reg := fun _ => 7
    csr := fun _ => 7
    mem := fun a => if a = wordAddr frameAddr 32 then 0x1000 else 0 }
  current := 0
  inTrap := true
  frames := Function.update (fun _ => none) 0 (some bootFrames)
  trapState _ := .process
  saved q l := if q = 0 ∧ l = .userspace then some (startContext 0x1000) else none

theorem bootFrames_apart (k l : FrameKind) (hne : k ≠ l) :
    FrameApart (bootFrames k) (bootFrames l) := by
  intro i hi j hj h
  have hnat := congrArg BitVec.toNat h
  unfold frameWords at hi hj
  rw [wordAddr, wordAddr, BitVec.toNat_add, BitVec.toNat_add, BitVec.toNat_ofNat,
    BitVec.toNat_ofNat] at hnat
  have huser : (bootFrames .userspace).toNat = trapframeAddress := by decide
  have hkernel : (bootFrames .kernelspace).toNat = 0x1000 := by decide
  have hfault : (bootFrames .pageFault).toNat = 0x2000 := by decide
  unfold trapframeAddress at huser
  cases k <;> cases l <;> simp only [huser, hkernel, hfault] at hnat <;>
    first | omega | exact hne rfl

theorem bootRun_start : ContextRun.Start bare bootRun := by
  refine ⟨bootFrames, 0x1000, rfl, rfl, rfl, bootFrames_apart, rfl, ⟨by decide, ?_⟩, ?_, rfl⟩
  · exact fun csr m _ _ k _ access _ => rfl
  · intro j hj
    by_cases h : j = 32
    · subst h
      rfl
    · exact (if_neg (frameWord_ne (hj.trans (by decide)) (by decide) h)).trans (if_neg h).symm

/-- The first return enters the program of the process. -/
theorem contexts_restored_boot : bootRun.inTrap = true ∧ ∃ t,
    execs bare 0 loadTrapFrame bootRun.hart = some t ∧ context (sret t) = startContext 0x1000 := by
  obtain ⟨k, c, t, hk, hc, ht, hctx⟩ :=
    (contexts_restored (Reach.start bootRun_start : Reach _ (ContextRun.Step bare 0) bootRun)).2 rfl
  cases hk
  cases hc
  exact ⟨rfl, t, ht, hctx⟩

end Toastium
