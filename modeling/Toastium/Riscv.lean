import Toastium.Word
import Mathlib.Data.BitVec
import Mathlib.Logic.Relation
import Mathlib.Tactic

/-!
# A RISC-V hart

The instructions of RV64 that an operating system writes by hand, on a hart with its registers, the
CSRs of its supervisor mode and physical memory in aligned words of 64 bits. The translation of
addresses is a parameter (`Mmu`), of which `bare` and `sv39` are instances. Instructions stand at
physical addresses (`Code`) and name others relative to their own, so that code runs the same
wherever its pages are mapped.

`HartSteps.block` runs code without jumps, of which `execs` is the effect, and `HartSteps.count` a
loop that is run a number of times. `takeTrap` and `sret` are what the hardware does when a trap is
taken and when its handler returns.
-/

namespace Toastium.Riscv

/-- A register. Number 0 is zero. -/
abbrev Reg := Fin 32

/-- Numerals are registers. -/
instance instNeZeroReg : NeZero 32 :=
  ⟨by decide⟩

/-- The CSRs of the supervisor mode. -/
inductive Csr
  | satp
  | stvec
  | sscratch
  | sepc
  | scause
  | stval
  | sstatus
  deriving DecidableEq, Repr

inductive Privilege
  | user
  | supervisor
  deriving DecidableEq, Repr

inductive Access
  | fetch
  | load
  | store
  deriving DecidableEq, Repr

/-- The word at a physical address. -/
abbrev Memory := BitVec 64 → BitVec 64

/-- The physical address of a virtual one, if the access is allowed. -/
abbrev Mmu := (Csr → BitVec 64) → Privilege → Memory → Access → BitVec 64 → Option (BitVec 64)

/-- The instructions. A symbol or a target is the physical address it was loaded at. -/
inductive Instr
  | li (rd : Reg) (imm : BitVec 64)
  | la (rd : Reg) (symbol : BitVec 64)
  | mv (rd rs : Reg)
  | add (rd rs1 rs2 : Reg)
  | addi (rd rs : Reg) (imm : BitVec 64)
  | mul (rd rs1 rs2 : Reg)
  | div (rd rs1 rs2 : Reg)
  | slli (rd rs : Reg) (shamt : ℕ)
  | ld (rd : Reg) (imm : BitVec 64) (rs : Reg)
  | sd (rs2 : Reg) (imm : BitVec 64) (rs1 : Reg)
  | csrr (rd : Reg) (csr : Csr)
  | csrw (csr : Csr) (rs : Reg)
  /-- `fence`, `fence.i` and `sfence.vma` : memory is read and written in order here. -/
  | fence
  | j (target : BitVec 64)
  | bgeu (rs1 rs2 : Reg) (target : BitVec 64)
  /-- `jalr zero, 0(rs)` -/
  | jr (rs : Reg)
  deriving DecidableEq, Repr

/-- The hart without its program counter, and the memory. -/
structure Hart where
  priv : Privilege
  reg : Reg → BitVec 64
  csr : Csr → BitVec 64
  mem : Memory

/-- The instructions at physical addresses, each with the address of the next one. -/
abbrev Code := BitVec 64 → Option (Instr × BitVec 64)

namespace Hart

variable (s : Hart)

def get (r : Reg) : BitVec 64 :=
  if r = 0 then 0 else s.reg r

def set (r : Reg) (v : BitVec 64) : Hart :=
  { s with reg := Function.update s.reg r v }

def setCsr (c : Csr) (v : BitVec 64) : Hart :=
  { s with csr := Function.update s.csr c v }

def setMem (a v : BitVec 64) : Hart :=
  { s with mem := Function.update s.mem a v }

theorem get_set (r r' : Reg) (v : BitVec 64) :
    (s.set r v).get r' = if r' = 0 then 0 else if r' = r then v else s.reg r' := by
  unfold get set
  dsimp only
  rw [Function.update_apply]

theorem get_set_self {r : Reg} (v : BitVec 64) (hr : r ≠ 0) : (s.set r v).get r = v := by
  rw [get_set, if_neg hr, if_pos rfl]

theorem get_set_of_ne {r r' : Reg} (v : BitVec 64) (hne : r' ≠ r) :
    (s.set r v).get r' = s.get r' := by
  rw [get_set, if_neg hne]
  rfl

/-- The physical address of an aligned word. -/
def word (mmu : Mmu) (access : Access) (va : BitVec 64) : Option (BitVec 64) := do
  let pa ← mmu s.csr s.priv s.mem access va
  if pa &&& 7 = 0 then some pa else none

end Hart

/-! ## Instructions -/

/-- The signed quotient, all ones for a division by zero. -/
def divide (x y : BitVec 64) : BitVec 64 :=
  if y = 0 then BitVec.allOnes 64 else x.sdiv y

/-- The signed quotient of numbers that are not negative. -/
theorem divide_eq {x y : BitVec 64} (hx : x.toNat < 2 ^ 63) (hy : y.toNat < 2 ^ 63)
    (hne : y ≠ 0) : divide x y = BitVec.ofNat 64 (x.toNat / y.toNat) := by
  have hmx : x.msb = false := by
    rw [BitVec.msb_eq_false_iff_two_mul_lt]
    omega
  have hmy : y.msb = false := by
    rw [BitVec.msb_eq_false_iff_two_mul_lt]
    omega
  rw [divide, if_neg hne, BitVec.sdiv_eq, hmx, hmy]
  refine BitVec.eq_of_toNat_eq ?_
  rw [BitVec.toNat_ofNat, Nat.mod_eq_of_lt ((Nat.div_le_self _ _).trans_lt x.isLt)]
  rfl

/-- What an instruction does to registers and memory, for code that runs `shift` bytes behind its
physical address. -/
def exec (mmu : Mmu) (shift : BitVec 64) (s : Hart) : Instr → Option Hart
  | .li rd imm => some (s.set rd imm)
  | .la rd symbol => some (s.set rd (symbol + shift))
  | .mv rd rs => some (s.set rd (s.get rs))
  | .add rd rs1 rs2 => some (s.set rd (s.get rs1 + s.get rs2))
  | .addi rd rs imm => some (s.set rd (s.get rs + imm))
  | .mul rd rs1 rs2 => some (s.set rd (s.get rs1 * s.get rs2))
  | .div rd rs1 rs2 => some (s.set rd (divide (s.get rs1) (s.get rs2)))
  | .slli rd rs shamt => some (s.set rd (s.get rs <<< shamt))
  | .ld rd imm rs => do
    let pa ← s.word mmu .load (s.get rs + imm)
    return s.set rd (s.mem pa)
  | .sd rs2 imm rs1 => do
    let pa ← s.word mmu .store (s.get rs1 + imm)
    return s.setMem pa (s.get rs2)
  | .csrr rd csr => some (s.set rd (s.csr csr))
  | .csrw csr rs => some (s.setCsr csr (s.get rs))
  | _ => some s

/-- Where an instruction goes on. -/
def target (shift next : BitVec 64) (s : Hart) : Instr → BitVec 64
  | .j t => t + shift
  | .bgeu rs1 rs2 t => if s.get rs2 ≤ s.get rs1 then t + shift else next + shift
  | .jr rs => s.get rs
  | _ => next + shift

/-- The instruction goes on with the next one. -/
def Instr.straight : Instr → Bool
  | .j _ => false
  | .bgeu _ _ _ => false
  | .jr _ => false
  | _ => true

/-- The instruction also leaves memory and `satp` alone. -/
def Instr.quiet : Instr → Bool
  | .sd _ _ _ => false
  | .csrw .satp _ => false
  | i => i.straight

/-- The register that an instruction writes. -/
def Instr.rd : Instr → Option Reg
  | .li rd _ => some rd
  | .la rd _ => some rd
  | .mv rd _ => some rd
  | .add rd _ _ => some rd
  | .addi rd _ _ => some rd
  | .mul rd _ _ => some rd
  | .div rd _ _ => some rd
  | .slli rd _ _ => some rd
  | .ld rd _ _ => some rd
  | .csrr rd _ => some rd
  | _ => none

/-- The instruction at the program counter. -/
def step (mmu : Mmu) (code : Code) (p : BitVec 64 × Hart) : Option (BitVec 64 × Hart) := do
  let (pc, s) := p
  let pa ← mmu s.csr s.priv s.mem .fetch pc
  let (i, next) ← code pa
  let s' ← exec mmu (pc - pa) s i
  return (target (pc - pa) next s i, s')

/-- The effect of instructions one after the other. -/
def execs (mmu : Mmu) (shift : BitVec 64) (is : List Instr) (s : Hart) : Option Hart :=
  is.foldlM (exec mmu shift) s

/-- A run. -/
def HartSteps (mmu : Mmu) (code : Code) : BitVec 64 × Hart → BitVec 64 × Hart → Prop :=
  Relation.ReflTransGen fun p q => step mmu code p = some q

/-- The instructions `is` stand at the addresses `addr i`, …. -/
def Loaded (code : Code) (addr : ℕ → BitVec 64) (i : ℕ) (is : List Instr) : Prop :=
  ∀ k x, is[k]? = some x → code (addr (i + k)) = some (x, addr (i + k + 1))

/-- The hart can fetch the code at `addr i` where it runs. -/
def Hart.Fetches (mmu : Mmu) (addr : ℕ → BitVec 64) (shift : BitVec 64) (s : Hart) : Prop :=
  ∀ i, mmu s.csr s.priv s.mem .fetch (addr i + shift) = some (addr i)

section Rules

variable {mmu : Mmu} {code : Code} {addr : ℕ → BitVec 64} {shift : BitVec 64} {s s' : Hart}

@[simp] theorem execs_nil : execs mmu shift [] s = some s := rfl

theorem execs_cons (i : Instr) (is : List Instr) :
    execs mmu shift (i :: is) s = exec mmu shift s i >>= execs mmu shift is := rfl

theorem execs_append (is js : List Instr) :
    execs mmu shift (is ++ js) s = execs mmu shift is s >>= execs mmu shift js :=
  List.foldlM_append

theorem Loaded.head {i : ℕ} {x : Instr} {is : List Instr} (h : Loaded code addr i (x :: is)) :
    code (addr i) = some (x, addr (i + 1)) :=
  h 0 x rfl

theorem Loaded.drop {i : ℕ} {is : List Instr} (h : Loaded code addr i is) (n : ℕ) :
    Loaded code addr (i + n) (is.drop n) := fun k x hx => by
  rw [List.getElem?_drop] at hx
  rw [Nat.add_assoc]
  exact h (n + k) x hx

theorem Loaded.take {i : ℕ} {is : List Instr} (h : Loaded code addr i is) (n : ℕ) :
    Loaded code addr i (is.take n) := fun k x hx => by
  rw [List.getElem?_take] at hx
  split_ifs at hx
  exact h k x hx

/-- The instruction of code that can be fetched. -/
theorem step_eq {i : ℕ} {x : Instr} (hf : s.Fetches mmu addr shift)
    (hx : code (addr i) = some (x, addr (i + 1))) (hs : exec mmu shift s x = some s') :
    step mmu code (addr i + shift, s) = some (target shift (addr (i + 1)) s x, s') := by
  have hshift : addr i + shift - addr i = shift := by
    rw [BitVec.add_comm, BitVec.add_sub_cancel]
  simp only [step, hf i, hx, Option.bind_eq_bind, Option.bind_some, hshift, hs, Option.pure_def]

theorem target_straight {x : Instr} (h : x.straight = true) (next : BitVec 64) (s : Hart) :
    target shift next s x = next + shift := by
  cases x with
  | j t => cases h
  | bgeu a b t => cases h
  | jr r => cases h
  | _ => rfl

/-- Code without jumps, which keeps `P`, and with it can be fetched. -/
theorem HartSteps.block {P : Hart → Prop} (hfetch : ∀ s, P s → s.Fetches mmu addr shift) :
    ∀ {is : List Instr} {i : ℕ} {s s' : Hart}, Loaded code addr i is →
      (∀ x ∈ is, x.straight = true) →
      (∀ x ∈ is, ∀ t t', P t → exec mmu shift t x = some t' → P t') → P s →
      execs mmu shift is s = some s' →
      HartSteps mmu code (addr i + shift, s) (addr (i + is.length) + shift, s') ∧ P s'
  | [], i, s, s', _, _, _, hs, hexec => by
    cases hexec
    exact ⟨.refl, hs⟩
  | x :: is, i, s, s', hload, hstraight, hkeep, hs, hexec => by
    obtain ⟨s1, hs1, hexec⟩ := Option.bind_eq_some_iff.mp hexec
    obtain ⟨hx, hstraight⟩ := List.forall_mem_cons.mp hstraight
    obtain ⟨hkeep1, hkeep⟩ := List.forall_mem_cons.mp hkeep
    have hfirst := step_eq (hfetch s hs) hload.head hs1
    rw [target_straight hx] at hfirst
    obtain ⟨hrest, hs'⟩ := HartSteps.block hfetch (hload.drop 1) hstraight hkeep
      (hkeep1 s s1 hs hs1) hexec
    rw [Nat.add_assoc, Nat.add_comm 1] at hrest
    exact ⟨.head hfirst hrest, hs'⟩

theorem exec_sd {rs1 rs2 : Reg} {imm pa : BitVec 64}
    (h : s.word mmu .store (s.get rs1 + imm) = some pa) :
    exec mmu shift s (.sd rs2 imm rs1) = some (s.setMem pa (s.get rs2)) := by
  simp only [exec, h, Option.bind_eq_bind, Option.bind_some, Option.pure_def]

theorem exec_ld {rd rs : Reg} {imm pa : BitVec 64}
    (h : s.word mmu .load (s.get rs + imm) = some pa) :
    exec mmu shift s (.ld rd imm rs) = some (s.set rd (s.mem pa)) := by
  simp only [exec, h, Option.bind_eq_bind, Option.bind_some, Option.pure_def]

theorem exec_reg {x : Instr} {r : Reg} (hexec : exec mmu shift s x = some s')
    (hr : x.rd ≠ some r) : s'.reg r = s.reg r := by
  cases x with
  | ld rd imm rs =>
    obtain ⟨pa, -, hexec⟩ := Option.bind_eq_some_iff.mp hexec
    cases hexec
    exact Function.update_of_ne (fun h => hr (congrArg some h.symm)) _ _
  | sd rs2 imm rs1 =>
    obtain ⟨pa, -, hexec⟩ := Option.bind_eq_some_iff.mp hexec
    cases hexec
    rfl
  | csrw c rs =>
    cases hexec
    rfl
  | fence =>
    cases hexec
    rfl
  | j target =>
    cases hexec
    rfl
  | bgeu a b target =>
    cases hexec
    rfl
  | jr rs =>
    cases hexec
    rfl
  | _ =>
    cases hexec
    exact Function.update_of_ne (fun h => hr (congrArg some h.symm)) _ _

/-- The registers that are not written. -/
theorem execs_reg {r : Reg} : ∀ {is : List Instr} {s s' : Hart},
    execs mmu shift is s = some s' → r ∉ is.filterMap Instr.rd → s'.reg r = s.reg r
  | [], s, s', hexec, _ => by
    cases hexec
    rfl
  | x :: is, s, s', hexec, hr => by
    obtain ⟨s1, hs1, hexec⟩ := Option.bind_eq_some_iff.mp hexec
    rw [List.mem_filterMap] at hr
    push Not at hr
    rw [execs_reg hexec, exec_reg hs1 (hr x List.mem_cons_self)]
    rw [List.mem_filterMap]
    push Not
    exact fun y hy => hr y (List.mem_cons_of_mem _ hy)

theorem exec_satp {x : Instr} (hexec : exec mmu shift s x = some s')
    (h : ∀ r, x ≠ .csrw .satp r) : s'.csr .satp = s.csr .satp := by
  cases x with
  | ld rd imm rs =>
    obtain ⟨pa, -, hexec⟩ := Option.bind_eq_some_iff.mp hexec
    cases hexec
    rfl
  | sd rs2 imm rs1 =>
    obtain ⟨pa, -, hexec⟩ := Option.bind_eq_some_iff.mp hexec
    cases hexec
    rfl
  | csrw c rs =>
    cases hexec
    refine Function.update_of_ne (fun hc => ?_) _ _
    cases hc
    exact h rs rfl
  | _ =>
    cases hexec
    rfl

theorem exec_quiet {x : Instr} (h : x.quiet = true) (hexec : exec mmu shift s x = some s') :
    s'.priv = s.priv ∧ s'.csr .satp = s.csr .satp ∧ s'.mem = s.mem := by
  cases x with
  | ld rd imm rs =>
    obtain ⟨pa, -, hexec⟩ := Option.bind_eq_some_iff.mp hexec
    cases hexec
    exact ⟨rfl, rfl, rfl⟩
  | sd rs2 imm rs1 => cases h
  | csrw c rs =>
    cases hexec
    refine ⟨rfl, Function.update_of_ne (fun hc => ?_) _ _, rfl⟩
    cases hc
    cases h
  | _ =>
    cases hexec
    exact ⟨rfl, rfl, rfl⟩

theorem Instr.straight_of_quiet {x : Instr} (h : x.quiet = true) : x.straight = true := by
  cases x with
  | sd rs2 imm rs1 => cases h
  | csrw c rs => rfl
  | _ => exact h

/-- Code that leaves memory and `satp` alone. -/
theorem HartSteps.quiet {is : List Instr} {i : ℕ} (hload : Loaded code addr i is)
    (hquiet : ∀ x ∈ is, x.quiet = true)
    (hfetch : ∀ t : Hart, t.priv = s.priv → t.csr .satp = s.csr .satp → t.mem = s.mem →
      t.Fetches mmu addr shift) (hexec : execs mmu shift is s = some s') :
    HartSteps mmu code (addr i + shift, s) (addr (i + is.length) + shift, s') ∧ s'.priv = s.priv ∧
      s'.csr .satp = s.csr .satp ∧ s'.mem = s.mem :=
  HartSteps.block
    (P := fun t => t.priv = s.priv ∧ t.csr .satp = s.csr .satp ∧ t.mem = s.mem)
    (fun t ht => hfetch t ht.1 ht.2.1 ht.2.2) hload
    (fun x hx => Instr.straight_of_quiet (hquiet x hx))
    (fun x hx t t' ht hexec => by
      obtain ⟨hpriv, hsatp, hmem⟩ := exec_quiet (hquiet x hx) hexec
      exact ⟨hpriv.trans ht.1, hsatp.trans ht.2.1, hmem.trans ht.2.2⟩) ⟨rfl, rfl, rfl⟩ hexec

/-- A jump. -/
theorem HartSteps.jump {i k : ℕ} (hf : s.Fetches mmu addr shift)
    (hx : code (addr i) = some (.j (addr k), addr (i + 1))) :
    HartSteps mmu code (addr i + shift, s) (addr k + shift, s) :=
  .single (step_eq hf hx rfl)

/-- A branch that is not taken. -/
theorem HartSteps.bgeu_next {i k : ℕ} {a b : Reg} (hf : s.Fetches mmu addr shift)
    (hx : code (addr i) = some (.bgeu a b (addr k), addr (i + 1))) (hlt : ¬s.get b ≤ s.get a) :
    HartSteps mmu code (addr i + shift, s) (addr (i + 1) + shift, s) := by
  have h := step_eq hf hx rfl
  rw [target, if_neg hlt] at h
  exact .single h

/-- A loop whose body takes the invariant from `k` to `k + 1`, run `n` times. -/
theorem HartSteps.count {pc : BitVec 64} {Inv : ℕ → Hart → Prop} : ∀ {n : ℕ},
    (∀ k < n, ∀ s, Inv k s → ∃ s', HartSteps mmu code (pc, s) (pc, s') ∧ Inv (k + 1) s') →
    Inv 0 s → ∃ s', HartSteps mmu code (pc, s) (pc, s') ∧ Inv n s'
  | 0, _, h0 => ⟨s, .refl, h0⟩
  | n + 1, hbody, h0 => by
    obtain ⟨s1, hrun, h1⟩ :=
      HartSteps.count (fun k hk => hbody k (hk.trans (Nat.lt_succ_self n))) h0
    obtain ⟨s2, hlast, h2⟩ := hbody n (Nat.lt_succ_self n) s1 h1
    exact ⟨s2, hrun.trans hlast, h2⟩

end Rules

/-! ## Words in memory -/

/-- Word `k` from `a` on. -/
def wordAddr (a : BitVec 64) (k : ℕ) : BitVec 64 :=
  a + BitVec.ofNat 64 (8 * k)

theorem toNat_wordAddr {a : BitVec 64} {k : ℕ} (h : a.toNat + 8 * k < 2 ^ 64) :
    (wordAddr a k).toNat = a.toNat + 8 * k := by
  rw [wordAddr, BitVec.toNat_add, BitVec.toNat_ofNat]
  omega

theorem wordAddr_inj (a : BitVec 64) {j k : ℕ} (hj : j < 2 ^ 61) (hk : k < 2 ^ 61)
    (h : wordAddr a j = wordAddr a k) : j = k := by
  have hnat := congrArg (fun x => (x - a).toNat) h
  simp only [wordAddr, BitVec.add_sub_cancel, BitVec.add_comm a] at hnat
  rw [BitVec.toNat_ofNat, BitVec.toNat_ofNat] at hnat
  omega

theorem wordAddr_aligned {a : BitVec 64} (ha : a &&& 7 = 0) (k : ℕ) : wordAddr a k &&& 7 = 0 := by
  have hand : ∀ x : BitVec 64, x &&& 7 = 0 ↔ x.toNat % 8 = 0 := fun x => by
    rw [← BitVec.toNat_inj, BitVec.toNat_and]
    change x.toNat &&& (2 ^ 3 - 1) = 0 ↔ _
    rw [Nat.and_two_pow_sub_one_eq_mod]
  rw [hand] at ha ⊢
  rw [wordAddr, BitVec.toNat_add, BitVec.toNat_ofNat]
  omega

/-- The two memories agree but for the `n` words from `a` on. -/
def SameOff (a : BitVec 64) (n : ℕ) (m m' : Memory) : Prop :=
  ∀ x, (∀ k < n, x ≠ wordAddr a k) → m' x = m x

theorem SameOff.refl (a : BitVec 64) (n : ℕ) (m : Memory) : SameOff a n m m :=
  fun _ _ => rfl

theorem SameOff.trans {a : BitVec 64} {n : ℕ} {m m' m'' : Memory} (h : SameOff a n m m')
    (h' : SameOff a n m' m'') : SameOff a n m m'' :=
  fun x hx => (h' x hx).trans (h x hx)

theorem SameOff.update (a : BitVec 64) {n k : ℕ} (hk : k < n) (m : Memory) (v : BitVec 64) :
    SameOff a n m (Function.update m (wordAddr a k) v) :=
  fun _ hx => Function.update_of_ne (hx k hk) _ _

/-- Loads and stores of the `n` words from `va` on are of those from `pa` on, whatever they hold,
and whatever the CSRs other than `satp` hold. -/
structure Window (mmu : Mmu) (s : Hart) (va pa : BitVec 64) (n : ℕ) : Prop where
  aligned : pa &&& 7 = 0
  mapped : ∀ csr m, csr .satp = s.csr .satp → SameOff pa n s.mem m →
    ∀ k < n, ∀ access, access ≠ .fetch →
      mmu csr s.priv m access (wordAddr va k) = some (wordAddr pa k)

section Window

variable {mmu : Mmu} {s s' : Hart} {va pa : BitVec 64} {n : ℕ}

theorem Window.keep (hw : Window mmu s va pa n) (hpriv : s'.priv = s.priv)
    (hsatp : s'.csr .satp = s.csr .satp) (hmem : SameOff pa n s.mem s'.mem) :
    Window mmu s' va pa n where
  aligned := hw.aligned
  mapped csr m hcsr hm k hk access ha := by
    rw [hpriv]
    exact hw.mapped csr m (hcsr.trans hsatp) (hmem.trans hm) k hk access ha

theorem Window.word (hw : Window mmu s va pa n) {k : ℕ} (hk : k < n) {access : Access}
    (ha : access ≠ .fetch) : s.word mmu access (wordAddr va k) = some (wordAddr pa k) := by
  rw [Hart.word, hw.mapped s.csr s.mem rfl (.refl _ _ _) k hk access ha]
  exact if_pos (wordAddr_aligned hw.aligned k)

/-- Registers stored one after the other, from word `i` of `base` on. -/
def sdFrom (base : Reg) : ℕ → List Reg → List Instr
  | _, [] => []
  | i, r :: rs => .sd r (BitVec.ofNat 64 (8 * i)) base :: sdFrom base (i + 1) rs

/-- Registers loaded one after the other, from word `i` of `base` on. -/
def ldFrom (base : Reg) : ℕ → List Reg → List Instr
  | _, [] => []
  | i, r :: rs => .ld r (BitVec.ofNat 64 (8 * i)) base :: ldFrom base (i + 1) rs

/-- The registers are in the words from `i` on, and the other words as they were. -/
theorem execs_sdFrom (shift : BitVec 64) (base : Reg) : ∀ (rs : List Reg) (i : ℕ) {s : Hart},
    Window mmu s va pa n → s.get base = va → i + rs.length ≤ n → n < 2 ^ 61 →
    ∃ m, execs mmu shift (sdFrom base i rs) s = some { s with mem := m } ∧
      (∀ k r, rs[k]? = some r → m (wordAddr pa (i + k)) = s.get r) ∧
      ∀ x, (∀ k < rs.length, x ≠ wordAddr pa (i + k)) → m x = s.mem x
  | [], i, s, _, _, _, _ =>
    ⟨s.mem, rfl, fun _ _ h => (by cases h), fun _ _ => rfl⟩
  | r :: rs, i, s, hw, hbase, hle, hn => by
    rw [List.length_cons] at hle
    have hi : i < n := by omega
    have hword : s.word mmu .store (s.get base + BitVec.ofNat 64 (8 * i)) =
        some (wordAddr pa i) := by
      rw [hbase]
      exact hw.word hi (by decide)
    have hfirst : exec mmu shift s (.sd r (BitVec.ofNat 64 (8 * i)) base) =
        some (s.setMem (wordAddr pa i) (s.get r)) := exec_sd hword
    have hw' : Window mmu (s.setMem (wordAddr pa i) (s.get r)) va pa n :=
      hw.keep rfl rfl (.update pa hi s.mem (s.get r))
    obtain ⟨m, hrun, hin, hout⟩ := execs_sdFrom shift base rs (i + 1) hw' hbase (by omega) hn
    refine ⟨m, ?_, fun k r' hr => ?_, fun x hx => ?_⟩
    · rw [sdFrom, execs_cons, hfirst]
      exact hrun
    · cases k with
      | zero =>
        cases hr
        rw [Nat.add_zero, hout (wordAddr pa i) fun k hk h => ?_]
        · exact Function.update_self _ _ _
        · have := wordAddr_inj pa (by omega) (by omega) h
          omega
      | succ k =>
        have := hin k r' hr
        rwa [show i + 1 + k = i + (k + 1) by omega] at this
    · rw [hout x fun k hk => ?_]
      · exact Function.update_of_ne (hx 0 (Nat.succ_pos _)) _ _
      · have := hx (k + 1) (by rw [List.length_cons]; omega)
        rwa [show i + (k + 1) = i + 1 + k by omega] at this

/-- The words from `i` on are in the registers, and the other registers as they were. -/
theorem execs_ldFrom (shift : BitVec 64) (base : Reg) : ∀ (rs : List Reg) (i : ℕ) {s : Hart},
    Window mmu s va pa n → s.get base = va → i + rs.length ≤ n → base ∉ rs → rs.Nodup →
    ∃ reg, execs mmu shift (ldFrom base i rs) s = some { s with reg := reg } ∧
      (∀ k r, rs[k]? = some r → reg r = s.mem (wordAddr pa (i + k))) ∧
      ∀ r, r ∉ rs → reg r = s.reg r
  | [], i, s, _, _, _, _, _ =>
    ⟨s.reg, rfl, fun _ _ h => (by cases h), fun _ _ => rfl⟩
  | r :: rs, i, s, hw, hbase, hle, hnot, hnodup => by
    rw [List.length_cons] at hle
    obtain ⟨hr, hnodup⟩ := List.nodup_cons.mp hnodup
    obtain ⟨hne, hnot⟩ := not_or.mp (List.mem_cons.not.mp hnot)
    have hi : i < n := by omega
    have hword : s.word mmu .load (s.get base + BitVec.ofNat 64 (8 * i)) =
        some (wordAddr pa i) := by
      rw [hbase]
      exact hw.word hi (by decide)
    have hfirst : exec mmu shift s (.ld r (BitVec.ofNat 64 (8 * i)) base) =
        some (s.set r (s.mem (wordAddr pa i))) := exec_ld hword
    have hbase' : (s.set r (s.mem (wordAddr pa i))).get base = va :=
      (Hart.get_set_of_ne s _ hne).trans hbase
    have hw' : Window mmu (s.set r (s.mem (wordAddr pa i))) va pa n :=
      hw.keep rfl rfl (.refl _ _ _)
    obtain ⟨reg, hrun, hin, hout⟩ := execs_ldFrom shift base rs (i + 1) hw' hbase' (by omega) hnot
      hnodup
    refine ⟨reg, ?_, fun k r' hr' => ?_, fun r' hr' => ?_⟩
    · rw [ldFrom, execs_cons, hfirst]
      exact hrun
    · cases k with
      | zero =>
        cases hr'
        rw [hout r hr]
        exact Function.update_self _ _ _
      | succ k =>
        have := hin k r' hr'
        rwa [show i + 1 + k = i + (k + 1) by omega] at this
    · obtain ⟨hne', hr'⟩ := not_or.mp (List.mem_cons.not.mp hr')
      rw [hout r' hr']
      exact Function.update_of_ne hne' _ _

end Window

/-! ## Traps -/

/-- Bit `b` of a word written. -/
def writeBit (w : BitVec 64) (b : ℕ) (v : Bool) : BitVec 64 :=
  if v then setBit w b else clearBit w b

theorem getLsbD_writeBit (w : BitVec 64) {b i : ℕ} (v : Bool) (hi : i < 64) :
    (writeBit w b v).getLsbD i = if i = b then v else w.getLsbD i := by
  unfold writeBit
  cases v with
  | true =>
    rw [if_pos rfl, getLsbD_setBit hi]
    by_cases h : i = b <;> simp [h]
  | false =>
    rw [if_neg Bool.false_ne_true, getLsbD_clearBit hi]
    by_cases h : i = b <;> simp [h]

/-- `SIE` of `sstatus` : interrupts are enabled in supervisor mode. -/
def sie : ℕ := 1

/-- `SPIE` of `sstatus` : they were before the trap. -/
def spie : ℕ := 5

/-- `SPP` of `sstatus` : the trap was taken in supervisor mode. -/
def spp : ℕ := 8

/-- `sstatus` once a trap is taken. -/
def trapStatus (priv : Privilege) (w : BitVec 64) : BitVec 64 :=
  writeBit (writeBit (writeBit w spie (w.getLsbD sie)) sie false) spp (priv == .supervisor)

/-- `sstatus` once the handler has returned. -/
def retStatus (w : BitVec 64) : BitVec 64 :=
  writeBit (writeBit (writeBit w sie (w.getLsbD spie)) spie true) spp false

/-- The privilege that the handler returns to. -/
def retPriv (w : BitVec 64) : Privilege :=
  if w.getLsbD spp then .supervisor else .user

/-- A trap is taken. -/
def takeTrap (cause tval : BitVec 64) (p : BitVec 64 × Hart) : BitVec 64 × Hart :=
  (p.2.csr .stvec &&& ~~~3, { p.2 with
    priv := .supervisor
    csr := Function.update (Function.update (Function.update (Function.update p.2.csr
      .sepc p.1) .scause cause) .stval tval) .sstatus (trapStatus p.2.priv (p.2.csr .sstatus)) })

/-- The handler returns. -/
def sret (s : Hart) : BitVec 64 × Hart :=
  (s.csr .sepc, { s with
    priv := retPriv (s.csr .sstatus)
    csr := Function.update s.csr .sstatus (retStatus (s.csr .sstatus)) })

theorem retPriv_trapStatus (priv : Privilege) (w : BitVec 64) :
    retPriv (trapStatus priv w) = priv := by
  unfold retPriv trapStatus
  rw [getLsbD_writeBit _ _ (by decide), if_pos rfl]
  cases priv with
  | user => rfl
  | supervisor => rfl

/-- Interrupts are enabled again if they were before the trap. -/
theorem sie_retStatus_trapStatus (priv : Privilege) (w : BitVec 64) :
    (retStatus (trapStatus priv w)).getLsbD sie = w.getLsbD sie := by
  unfold retStatus
  rw [getLsbD_writeBit _ _ (by decide), if_neg (by decide), getLsbD_writeBit _ _ (by decide),
    if_neg (by decide), getLsbD_writeBit _ _ (by decide), if_pos rfl]
  unfold trapStatus
  rw [getLsbD_writeBit _ _ (by decide), if_neg (by decide), getLsbD_writeBit _ _ (by decide),
    if_neg (by decide), getLsbD_writeBit _ _ (by decide), if_pos rfl]

/-! ## Translation -/

/-- Addresses are physical. -/
def bare : Mmu := fun _ _ _ _ va => some va

/-- The leaf that the sv39 walk ends at, from a table of level `l` on, with the level of it. -/
def walk (m : Memory) (va : BitVec 64) : ℕ → BitVec 64 → Option (BitVec 64 × ℕ)
  | l, table =>
    let idx := va >>> (12 + 9 * l) &&& 0x1ff
    let pte := m (table + idx * 8)
    if pte.getLsbD 0 = false ∨ pte.getLsbD 1 = false ∧ pte.getLsbD 2 = true ∨ pte >>> 54 ≠ 0 then
      none
    else if pte.getLsbD 1 ∨ pte.getLsbD 3 then some (pte, l)
    else
      match l with
      | 0 => none
      | l + 1 => walk m va l (pte >>> 10 <<< 12)

/-- The leaf allows the access. Pages of the user are not executed in supervisor mode, and are
read and written there if `SUM` is set. -/
def allowed (sum : Bool) (priv : Privilege) (access : Access) (pte : BitVec 64) : Bool :=
  (match access with
    | .fetch => pte.getLsbD 3
    | .load => pte.getLsbD 1
    | .store => pte.getLsbD 2) &&
  match priv with
  | .user => pte.getLsbD 4
  | .supervisor => !pte.getLsbD 4 || sum && access != .fetch

/-- The translation that `satp` selects : none, or sv39. Bits 38 to 63 of an address are the same
in sv39, and the leaf of a larger page is aligned. -/
def sv39 : Mmu := fun csr priv m access va =>
  if csr .satp >>> 60 = 0 then some va
  else if csr .satp >>> 60 ≠ 8 ∨ va ≠ (va.setWidth 39).signExtend 64 then none
  else
    match walk m va 2 ((csr .satp &&& 0xfffffffffff) <<< 12) with
    | none => none
    | some (pte, l) =>
      let low := BitVec.ofNat 64 (2 ^ (12 + 9 * l) - 1)
      let page := pte >>> 10 <<< 12
      if page &&& low &&& ~~~0xfff = 0 ∧ allowed ((csr .sstatus).getLsbD 18) priv access pte then
        some (page ||| va &&& low)
      else none

/-- The addresses of sv39. -/
theorem canonical_iff (va : BitVec 64) : va = (va.setWidth 39).signExtend 64 ↔
    va.toNat < 2 ^ 38 ∨ 2 ^ 64 - 2 ^ 38 ≤ va.toNat := by
  have hmsb : (va.setWidth 39).msb = decide (2 ^ 38 ≤ va.toNat % 2 ^ 39) := by
    rw [BitVec.msb_eq_decide, BitVec.toNat_setWidth]
  have hlt := va.isLt
  rw [← BitVec.toNat_inj, BitVec.toNat_signExtend, hmsb, BitVec.toNat_setWidth,
    BitVec.toNat_setWidth]
  by_cases h : 2 ^ 38 ≤ va.toNat % 2 ^ 39
  · rw [decide_eq_true h, if_pos rfl]
    omega
  · rw [decide_eq_false h, if_neg Bool.false_ne_true]
    omega

/-- A leaf of 1 GiB that the supervisor reads, writes and executes, for block `i` of the memory. -/
structure Gigapage (pte : BitVec 64) (i : ℕ) : Prop where
  valid : pte.getLsbD 0 = true
  read : pte.getLsbD 1 = true
  write : pte.getLsbD 2 = true
  exec : pte.getLsbD 3 = true
  user : pte.getLsbD 4 = false
  reserved : pte >>> 54 = 0
  page : pte >>> 10 <<< 12 = BitVec.ofNat 64 (i * 2 ^ 30)

/-- A leaf is made of its flags and its block. -/
theorem Gigapage.of_toNat {pte : BitVec 64} {i flags : ℕ} (h : pte.toNat = flags + i * 2 ^ 28)
    (hi : i < 2 ^ 26) (hflags : flags < 2 ^ 10) (hrwx : flags % 2 ^ 5 = 15) : Gigapage pte i := by
  have hbit : ∀ k, pte.getLsbD k = decide ((flags + i * 2 ^ 28) / 2 ^ k % 2 = 1) := fun k => by
    rw [BitVec.getLsbD, Nat.testBit_eq_decide_div_mod_eq, h]
  refine ⟨?_, ?_, ?_, ?_, ?_, ?_, ?_⟩
  · rw [hbit, decide_eq_true_iff]
    omega
  · rw [hbit, decide_eq_true_iff]
    omega
  · rw [hbit, decide_eq_true_iff]
    omega
  · rw [hbit, decide_eq_true_iff]
    omega
  · rw [hbit, decide_eq_false_iff_not]
    omega
  · refine BitVec.eq_of_toNat_eq ?_
    rw [BitVec.toNat_ushiftRight, Nat.shiftRight_eq_div_pow, h]
    change _ = 0
    omega
  · refine BitVec.eq_of_toNat_eq ?_
    rw [BitVec.toNat_shiftLeft, BitVec.toNat_ushiftRight, Nat.shiftRight_eq_div_pow,
      Nat.shiftLeft_eq, h, BitVec.toNat_ofNat]
    omega

theorem toNat_and_mask (x : BitVec 64) {mask : BitVec 64} {n : ℕ} (h : mask.toNat = 2 ^ n - 1) :
    (x &&& mask).toNat = x.toNat % 2 ^ n := by
  rw [BitVec.toNat_and, h, Nat.and_two_pow_sub_one_eq_mod]

section Giga

variable {csr : Csr → BitVec 64} {m : Memory} {va pte : BitVec 64} {i : ℕ}

theorem walk_gigapage (root : BitVec 64) (hpte : m (wordAddr root (va.toNat / 2 ^ 30 % 512)) = pte)
    (h : Gigapage pte i) : walk m va 2 root = some (pte, 2) := by
  have hidx : root + (va >>> (12 + 9 * 2) &&& 0x1ff) * 8 =
      wordAddr root (va.toNat / 2 ^ 30 % 512) := by
    refine congrArg (root + ·) (BitVec.eq_of_toNat_eq ?_)
    rw [BitVec.toNat_mul, toNat_and_mask _ (show (0x1ff : BitVec 64).toNat = 2 ^ 9 - 1 from rfl),
      BitVec.toNat_ushiftRight, BitVec.toNat_ofNat, Nat.shiftRight_eq_div_pow, Nat.mul_comm]
    rfl
  rw [walk]
  simp only [hidx, hpte, h.valid, h.read, h.reserved]
  simp

/-- The translation through such a leaf. -/
theorem sv39_gigapage (hmode : csr .satp >>> 60 = 8)
    (hva : va.toNat < 2 ^ 38 ∨ 2 ^ 64 - 2 ^ 38 ≤ va.toNat)
    (hpte : m (wordAddr ((csr .satp &&& 0xfffffffffff) <<< 12) (va.toNat / 2 ^ 30 % 512)) = pte)
    (h : Gigapage pte i) (hi : i < 2 ^ 26) (priv : Privilege) (access : Access) :
    sv39 csr priv m access va =
      if priv = .supervisor then some (BitVec.ofNat 64 (i * 2 ^ 30 + va.toNat % 2 ^ 30))
      else none := by
  have hallow : allowed ((csr .sstatus).getLsbD 18) priv access pte =
      decide (priv = .supervisor) := by
    unfold allowed
    cases priv <;> cases access <;> simp only [h.read, h.write, h.exec, h.user] <;> rfl
  have hlow : (BitVec.ofNat 64 (2 ^ 30 - 1)).toNat = 2 ^ 30 - 1 := rfl
  have halign : BitVec.ofNat 64 (i * 2 ^ 30) &&& BitVec.ofNat 64 (2 ^ 30 - 1) = 0 := by
    refine BitVec.eq_of_toNat_eq ?_
    rw [toNat_and_mask _ hlow, BitVec.toNat_ofNat]
    change _ = 0
    omega
  have hor : BitVec.ofNat 64 (i * 2 ^ 30) ||| va &&& BitVec.ofNat 64 (2 ^ 30 - 1) =
      BitVec.ofNat 64 (i * 2 ^ 30 + va.toNat % 2 ^ 30) := by
    have hmod : va.toNat % 2 ^ 30 < 2 ^ 30 := Nat.mod_lt _ (by decide)
    have hfst : (BitVec.ofNat 64 (i * 2 ^ 30)).toNat = 2 ^ 30 * i := by
      rw [BitVec.toNat_ofNat]
      omega
    refine BitVec.eq_of_toNat_eq ?_
    rw [BitVec.toNat_or, toNat_and_mask _ hlow, hfst, ← Nat.two_pow_add_eq_or_of_lt hmod,
      BitVec.toNat_ofNat]
    omega
  have hnot : ¬(csr .satp >>> 60 ≠ 8 ∨ va ≠ (va.setWidth 39).signExtend 64) :=
    not_or.mpr ⟨not_not.mpr hmode, not_not.mpr ((canonical_iff va).mpr hva)⟩
  rw [sv39, if_neg (by rw [hmode]; decide), if_neg hnot, walk_gigapage _ hpte h]
  dsimp only
  rw [h.page, show 12 + 9 * 2 = 30 from rfl, halign, hor, hallow]
  cases priv with
  | user => exact if_neg fun h => nomatch of_decide_eq_true h.2
  | supervisor => exact if_pos ⟨rfl, rfl⟩

end Giga

end Toastium.Riscv
