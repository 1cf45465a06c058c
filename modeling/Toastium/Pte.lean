import Toastium.Layout
import Toastium.Word

/-!
# Page table entries

The entries of an sv39 page table, as `virtual_memory.c` builds and reads them. Ten bits of
flags are followed by the number of a physical page. The kernel reaches physical memory
through its window from `KERNEL_VMA_START` on, so its pointers are window addresses.

An entry with the flag `VMA_VALID` alone points to a table (`createBranch`), and 0 maps
nothing. `LeafOk l e` says that `e` is 0 or maps an aligned run of `512 ^ l` pages. A leaf
cut into 512 leaves of the next level is `LeafOk.split`. `pte_decode` : decoding gives back what was
encoded, and tells leaves, pointers and 0 apart.
-/

namespace Toastium

/-- `VMA_VALID`. -/
def vmaValid : BitVec 64 := 1

/-- `VMA_READ`. -/
def vmaRead : BitVec 64 := 2

/-- `VMA_WRITE`. -/
def vmaWrite : BitVec 64 := 4

/-- `VMA_EXEC`. -/
def vmaExec : BitVec 64 := 8

/-- `VMA_USER`. -/
def vmaUser : BitVec 64 := 16

/-- `VMA_ACCESSED`. -/
def vmaAccessed : BitVec 64 := 64

/-- `VMA_DIRTY`. -/
def vmaDirty : BitVec 64 := 128

/-- `VMA_DONT_COMPRESS`. -/
def vmaDontCompress : BitVec 64 := 256

/-- The offset of a window address in physical memory. -/
def windowOffset (addr : BitVec 64) : BitVec 64 :=
  addr - BitVec.ofNat 64 kernelVmaStart

/-- `create_leaf`. -/
def createLeaf (physAddr argFlags : BitVec 64) : BitVec 64 :=
  if argFlags = 0 then 0
  else (windowOffset physAddr / 4096) <<< 10 ||| argFlags ||| vmaValid

/-- `create_branch`. -/
def createBranch (branchAddr : ℕ) : BitVec 64 :=
  (windowOffset (BitVec.ofNat 64 branchAddr) / 4096) <<< 10 ||| vmaValid

/-- `get_branch_loc`. -/
def getBranchLoc (leafData : BitVec 64) : ℕ :=
  if leafData &&& 1023 ≠ 1 then 0
  else ((leafData >>> 10 &&& 0xfffffffffff) * 4096 + BitVec.ofNat 64 kernelVmaStart).toNat

/-- `get_leaf_flags`. -/
def getLeafFlags (leafData : BitVec 64) : BitVec 64 :=
  1023 &&& leafData

/-- `get_phys_leaf_loc`. -/
def getPhysLeafLoc (leafData : BitVec 64) : BitVec 64 :=
  if leafData &&& 1023 ≤ 1 then 0
  else (leafData >>> 10 &&& 0xfffffffffff) * 4096 + BitVec.ofNat 64 kernelVmaStart

/-! ## The two fields of an entry -/

/-- The flags of an entry. -/
def pteFlags (e : BitVec 64) : ℕ :=
  e.toNat % 2 ^ 10

/-- The number of the physical page of an entry. -/
def ptePpn (e : BitVec 64) : ℕ :=
  e.toNat / 2 ^ 10 % 2 ^ 44

theorem and_mask_toNat (e : BitVec 64) : (e &&& 1023).toNat = pteFlags e :=
  Nat.and_two_pow_sub_one_eq_mod e.toNat 10

theorem getLeafFlags_toNat (e : BitVec 64) : (getLeafFlags e).toNat = pteFlags e := by
  rw [getLeafFlags, BitVec.and_comm, and_mask_toNat]

theorem ppn_field_toNat (e : BitVec 64) : (e >>> 10 &&& 0xfffffffffff).toNat = ptePpn e := by
  rw [ptePpn, BitVec.toNat_and, BitVec.toNat_ushiftRight, Nat.shiftRight_eq_div_pow]
  exact Nat.and_two_pow_sub_one_eq_mod _ 44

/-- A page number and flags put together. -/
theorem toNat_shiftLeft_or {x f : BitVec 64} (hx : x.toNat < 2 ^ 54) (hf : f.toNat < 2 ^ 10) :
    (x <<< 10 ||| f).toNat = x.toNat * 2 ^ 10 + f.toNat := by
  rw [BitVec.toNat_or, BitVec.toNat_shiftLeft, Nat.shiftLeft_eq,
    Nat.mod_eq_of_lt (by omega), ← Nat.shiftLeft_eq, ← Nat.shiftLeft_add_eq_or_of_lt hf]

theorem toNat_windowOffset_div (addr : BitVec 64) :
    (windowOffset addr / 4096).toNat = (windowOffset addr).toNat / 4096 := rfl

theorem createLeaf_toNat (phys : BitVec 64) {f : BitVec 64} (hf : f.toNat < 2 ^ 10)
    (hv : f ||| vmaValid = f) (h0 : f ≠ 0) :
    (createLeaf phys f).toNat = (windowOffset phys).toNat / 4096 * 2 ^ 10 + f.toNat := by
  have hlt := (windowOffset phys).isLt
  rw [createLeaf, if_neg h0, BitVec.or_assoc, hv,
    toNat_shiftLeft_or (by rw [toNat_windowOffset_div]; omega) hf, toNat_windowOffset_div]

/-- The pages of a table are in the window. -/
structure WindowPage (p : ℕ) : Prop where
  dvd : 4096 ∣ p
  le : kernelVmaStart ≤ p
  lt : p < 2 ^ 64

theorem WindowPage.pos {p : ℕ} (h : WindowPage p) : p ≠ 0 := by
  have := h.le
  unfold kernelVmaStart at this
  omega

theorem WindowPage.offset {p : ℕ} (h : WindowPage p) :
    (windowOffset (BitVec.ofNat 64 p)).toNat = p - kernelVmaStart := by
  have hle := h.le
  have hlt := h.lt
  unfold windowOffset kernelVmaStart at *
  rw [BitVec.toNat_sub, BitVec.toNat_ofNat, BitVec.toNat_ofNat]
  omega

theorem WindowPage.createBranch_toNat {p : ℕ} (h : WindowPage p) :
    (createBranch p).toNat = (p - kernelVmaStart) / 4096 * 2 ^ 10 + 1 := by
  have hlt := (windowOffset (BitVec.ofNat 64 p)).isLt
  rw [createBranch, toNat_shiftLeft_or (by rw [toNat_windowOffset_div]; omega) (by decide),
    toNat_windowOffset_div, h.offset]
  rfl

theorem WindowPage.pteFlags_createBranch {p : ℕ} (h : WindowPage p) :
    pteFlags (createBranch p) = 1 := by
  rw [pteFlags, h.createBranch_toNat]
  omega

theorem WindowPage.ptePpn_createBranch {p : ℕ} (h : WindowPage p) :
    ptePpn (createBranch p) * 4096 + kernelVmaStart = p := by
  have hle := h.le
  have hlt := h.lt
  have hdvd := h.dvd
  rw [ptePpn, h.createBranch_toNat]
  unfold kernelVmaStart at *
  omega

theorem getBranchLoc_eq_zero {e : BitVec 64} (h : pteFlags e ≠ 1) : getBranchLoc e = 0 := by
  refine if_pos fun he => h ?_
  rw [← and_mask_toNat, he]
  rfl

theorem window_toNat (e : BitVec 64) :
    ((e >>> 10 &&& 0xfffffffffff) * 4096 + BitVec.ofNat 64 kernelVmaStart).toNat =
      (ptePpn e * 4096 + kernelVmaStart) % 2 ^ 64 := by
  rw [BitVec.toNat_add, BitVec.toNat_mul, ppn_field_toNat, BitVec.toNat_ofNat,
    show (4096 : BitVec 64).toNat = 4096 from rfl, Nat.mod_add_mod, Nat.add_mod_mod]

theorem WindowPage.getBranchLoc_createBranch {p : ℕ} (h : WindowPage p) :
    getBranchLoc (createBranch p) = p := by
  have hflags : createBranch p &&& 1023 = 1 := by
    refine BitVec.eq_of_toNat_eq ?_
    rw [and_mask_toNat, h.pteFlags_createBranch]
    rfl
  rw [getBranchLoc, if_neg (not_not.mpr hflags), window_toNat, h.ptePpn_createBranch,
    Nat.mod_eq_of_lt h.lt]

/-! ## Leaves -/

/-- Flags that make an entry a leaf : valid, readable or executable, and not writable
only. -/
def LeafFlags (f : ℕ) : Prop :=
  f.testBit 0 = true ∧ (f.testBit 1 = true ∨ f.testBit 3 = true) ∧
    (f.testBit 2 = true → f.testBit 1 = true)

instance (f : ℕ) : Decidable (LeafFlags f) :=
  inferInstanceAs (Decidable (_ ∧ _ ∧ _))

/-- An entry that maps nothing, or an aligned run of `512 ^ l` pages. -/
def LeafOk (l : ℕ) (e : BitVec 64) : Prop :=
  e = 0 ∨ e.toNat < 2 ^ 54 ∧ LeafFlags (pteFlags e) ∧ 512 ^ l ∣ ptePpn e

/-- The page and the flags that a leaf of level `l` gives for the page `vpn`. -/
def leafXlate (l : ℕ) (e : BitVec 64) (vpn : ℕ) : Option (ℕ × ℕ) :=
  if e = 0 then none else some (ptePpn e + vpn % 512 ^ l, pteFlags e)

theorem LeafFlags.one_lt {f : ℕ} (h : LeafFlags f) : 1 < f := by
  by_contra hle
  obtain rfl | rfl : f = 0 ∨ f = 1 := by omega
  · exact absurd h (by decide)
  · exact absurd h (by decide)

theorem LeafOk.zero (l : ℕ) : LeafOk l 0 := Or.inl rfl

theorem LeafOk.flags_ne_one {l : ℕ} {e : BitVec 64} (h : LeafOk l e) : pteFlags e ≠ 1 := by
  rcases h with rfl | ⟨-, hf, -⟩
  · decide
  · exact hf.one_lt.ne'

theorem LeafOk.getBranchLoc {l : ℕ} {e : BitVec 64} (h : LeafOk l e) : getBranchLoc e = 0 :=
  getBranchLoc_eq_zero h.flags_ne_one

theorem or_vmaValid {f : BitVec 64} (h : f.toNat.testBit 0 = true) : f ||| vmaValid = f := by
  refine BitVec.eq_of_getLsbD_eq fun i hi => ?_
  rw [BitVec.getLsbD_or]
  cases i with
  | zero =>
    have : f.getLsbD 0 = true := h
    rw [this, Bool.true_or]
  | succ i =>
    have : vmaValid.getLsbD (i + 1) = false := by
      simp [vmaValid]
    rw [this, Bool.or_false]

/-- An entry with the number of a page and flags. -/
theorem leaf_fields {e : BitVec 64} {q f : ℕ} (he : e.toNat = q * 2 ^ 10 + f) (hq : q < 2 ^ 44)
    (hf : f < 2 ^ 10) : e.toNat < 2 ^ 54 ∧ ptePpn e = q ∧ pteFlags e = f := by
  unfold ptePpn pteFlags
  omega

/-- The leaf that `create_leaf` makes. -/
theorem createLeaf_fields {phys f : BitVec 64} (hf : f.toNat < 2 ^ 10)
    (hv : f.toNat.testBit 0 = true) (hphys : (windowOffset phys).toNat < 2 ^ 56) :
    createLeaf phys f ≠ 0 ∧ (createLeaf phys f).toNat < 2 ^ 54 ∧
      ptePpn (createLeaf phys f) = (windowOffset phys).toNat / 4096 ∧
      pteFlags (createLeaf phys f) = f.toNat := by
  have h0 : f ≠ 0 := by
    rintro rfl
    exact absurd hv (by decide)
  have htoNat := createLeaf_toNat phys hf (or_vmaValid hv) h0
  refine ⟨fun he => ?_, leaf_fields htoNat (by omega) hf⟩
  have hpos : f.toNat ≠ 0 := fun h => h0 (BitVec.eq_of_toNat_eq h)
  rw [he] at htoNat
  simp only [BitVec.ofNat_eq_ofNat, BitVec.toNat_ofNat, Nat.zero_mod] at htoNat
  omega

/-- The location of an entry with flags besides `VMA_VALID`. -/
theorem getPhysLeafLoc_eq {e : BitVec 64} (h : 1 < pteFlags e) : getPhysLeafLoc e =
    (e >>> 10 &&& 0xfffffffffff) * 4096 + BitVec.ofNat 64 kernelVmaStart := by
  refine if_neg ?_
  rw [BitVec.le_def, and_mask_toNat, Nat.not_le]
  exact h

theorem getPhysLeafLoc_offset {e : BitVec 64} (h : 1 < pteFlags e) (n : ℕ) :
    (windowOffset (getPhysLeafLoc e + BitVec.ofNat 64 n)).toNat =
      (ptePpn e * 4096 + n) % 2 ^ 64 := by
  rw [getPhysLeafLoc_eq h, windowOffset, BitVec.add_assoc,
    BitVec.add_comm (BitVec.ofNat 64 kernelVmaStart), ← BitVec.add_assoc, BitVec.add_sub_cancel,
    BitVec.toNat_add, BitVec.toNat_mul, ppn_field_toNat, BitVec.toNat_ofNat,
    show (4096 : BitVec 64).toNat = 4096 from rfl, Nat.mod_add_mod, Nat.add_mod_mod]

/-- The fields of leaf `i` of the 512 that `expand_leaf` makes of an entry of level `l + 1`. -/
theorem split_fields {l : ℕ} {e : BitVec 64} (hl : l ≤ 1) (hv : (pteFlags e).testBit 0 = true)
    (hgt : 1 < pteFlags e) (hdvd : 512 ^ (l + 1) ∣ ptePpn e) {i : ℕ} (hi : i < 512) :
    createLeaf (getPhysLeafLoc e + BitVec.ofNat 64 (i * (4096 * 512 ^ l))) (getLeafFlags e) ≠ 0 ∧
    (createLeaf (getPhysLeafLoc e + BitVec.ofNat 64 (i * (4096 * 512 ^ l)))
      (getLeafFlags e)).toNat < 2 ^ 54 ∧
    ptePpn (createLeaf (getPhysLeafLoc e + BitVec.ofNat 64 (i * (4096 * 512 ^ l)))
      (getLeafFlags e)) = ptePpn e + i * 512 ^ l ∧
    pteFlags (createLeaf (getPhysLeafLoc e + BitVec.ofNat 64 (i * (4096 * 512 ^ l)))
      (getLeafFlags e)) = pteFlags e := by
  have hppn : ptePpn e < 2 ^ 44 := Nat.mod_lt _ (by decide)
  have hf : (getLeafFlags e).toNat = pteFlags e := getLeafFlags_toNat e
  have hcases : l = 0 ∨ l = 1 := by omega
  have hle : ptePpn e + i * 512 ^ l < 2 ^ 44 := by
    rcases hcases with rfl | rfl
    · omega
    · omega
  have hoff : (windowOffset (getPhysLeafLoc e + BitVec.ofNat 64 (i * (4096 * 512 ^ l)))).toNat =
      (ptePpn e + i * 512 ^ l) * 4096 := by
    rw [getPhysLeafLoc_offset hgt, show ptePpn e * 4096 + i * (4096 * 512 ^ l) =
      (ptePpn e + i * 512 ^ l) * 4096 by ring, Nat.mod_eq_of_lt (by omega)]
  have hfields := @createLeaf_fields
    (getPhysLeafLoc e + BitVec.ofNat 64 (i * (4096 * 512 ^ l))) (getLeafFlags e)
    (by rw [hf]; exact Nat.mod_lt _ (by decide)) (by rw [hf]; exact hv) (by rw [hoff]; omega)
  rwa [hoff, Nat.mul_div_cancel _ (by decide), hf] at hfields

/-- The part of a page number that the leaves of two levels look at. -/
theorem vpn_mod_succ {l i vpn : ℕ} (hvpn : vpn / 512 ^ l % 512 = i) :
    vpn % 512 ^ (l + 1) = i * 512 ^ l + vpn % 512 ^ l := by
  rw [pow_succ, Nat.mod_mul, hvpn, Nat.mul_comm, Nat.add_comm]

/-- Leaf `i` of the 512 that `expand_leaf` makes of a leaf of level `l + 1`. -/
theorem LeafOk.split {l : ℕ} {e : BitVec 64} (hl : l ≤ 1) (h : LeafOk (l + 1) e) {i : ℕ}
    (hi : i < 512) :
    LeafOk l (createLeaf (getPhysLeafLoc e + BitVec.ofNat 64 (i * (4096 * 512 ^ l)))
      (getLeafFlags e)) ∧
    ∀ vpn, vpn / 512 ^ l % 512 = i →
      leafXlate l (createLeaf (getPhysLeafLoc e + BitVec.ofNat 64 (i * (4096 * 512 ^ l)))
        (getLeafFlags e)) vpn = leafXlate (l + 1) e vpn := by
  rcases h with rfl | ⟨hlt, hflags, hdvd⟩
  · refine ⟨Or.inl rfl, fun _ _ => rfl⟩
  obtain ⟨hne, hlt', hppn', hflags'⟩ := split_fields hl hflags.1 hflags.one_lt hdvd hi
  refine ⟨Or.inr ⟨hlt', by rw [hflags']; exact hflags, ?_⟩, fun vpn hvpn => ?_⟩
  · rw [hppn']
    exact Nat.dvd_add ((pow_dvd_pow 512 (Nat.le_succ l)).trans hdvd) (Nat.dvd_mul_left _ _)
  · have he : e ≠ 0 := by
      rintro rfl
      exact absurd hflags (by decide)
    rw [leafXlate, if_neg hne, leafXlate, if_neg he, hppn', hflags', vpn_mod_succ hvpn,
      Nat.add_assoc]

/-! ## Decoding -/

/-- The flags that `create_leaf` puts into an entry. -/
theorem createLeaf_or {phys f : BitVec 64} (h0 : f ≠ 0) :
    createLeaf phys f = createLeaf phys (f ||| vmaValid) := by
  have hne : f ||| vmaValid ≠ 0 := fun h => h0 (BitVec.or_eq_zero_iff.mp h).1
  rw [createLeaf, createLeaf, if_neg h0, if_neg hne, ← BitVec.or_assoc, BitVec.or_assoc _ vmaValid,
    BitVec.or_self]

theorem getPhysLeafLoc_eq_zero {e : BitVec 64} (h : pteFlags e ≤ 1) : getPhysLeafLoc e = 0 := by
  refine if_pos ?_
  rw [BitVec.le_def, and_mask_toNat]
  exact h

/-- Flags with a bit besides `VMA_VALID`. -/
theorem one_lt_of_flag {f : BitVec 64} (hbit : f &&& ~~~vmaValid ≠ 0) : 1 < f.toNat := by
  by_contra hle
  obtain h | h : f.toNat = 0 ∨ f.toNat = 1 := by omega
  · obtain rfl : f = 0 := BitVec.eq_of_toNat_eq h
    exact hbit (by decide)
  · obtain rfl : f = 1 := BitVec.eq_of_toNat_eq h
    exact hbit (by decide)

/-- A leaf for a page of the window, with flags besides `VMA_VALID`. -/
theorem WindowPage.createLeaf_fields {p f : BitVec 64} (hp : WindowPage p.toNat)
    (hf : f.toNat < 2 ^ 10) (hbit : f &&& ~~~vmaValid ≠ 0) :
    pteFlags (createLeaf p f) = (f ||| vmaValid).toNat ∧ 1 < pteFlags (createLeaf p f) ∧
      ptePpn (createLeaf p f) * 4096 + kernelVmaStart = p.toNat := by
  have hgt := one_lt_of_flag hbit
  have h0 : f ≠ 0 := by
    rintro rfl
    exact absurd hgt (by decide)
  have hor : (f ||| vmaValid).toNat = f.toNat ||| 1 := BitVec.toNat_or _ _
  have hlt : (f ||| vmaValid).toNat < 2 ^ 10 := by
    rw [hor]
    exact Nat.or_lt_two_pow hf (by decide)
  have hvalid : (f ||| vmaValid).toNat.testBit 0 = true := by
    rw [hor, Nat.testBit_or]
    simp
  have hle : f.toNat ≤ (f ||| vmaValid).toNat := hor ▸ Nat.left_le_or
  have hoff := hp.offset
  rw [BitVec.ofNat_toNat, BitVec.setWidth_eq] at hoff
  have hstart := hp.le
  have hdvd := hp.dvd
  have hp64 := p.isLt
  unfold kernelVmaStart at *
  have hphys : (windowOffset p).toNat < 2 ^ 56 := by omega
  obtain ⟨-, -, hppn, hflags⟩ := Toastium.createLeaf_fields hlt hvalid hphys
  rw [createLeaf_or h0, hppn, hflags, hoff]
  refine ⟨rfl, hgt.trans_le hle, ?_⟩
  omega

/-- What is decoded is what was encoded : a leaf for a page of the window and flags besides
`VMA_VALID` gives them back, a pointer to a table gives its address, and neither is taken for the
other or for an entry that maps nothing. -/
theorem pte_decode {p f : BitVec 64} (hp : WindowPage p.toNat) (hf : f.toNat < 2 ^ 10)
    (hbit : f &&& ~~~vmaValid ≠ 0) :
    (getPhysLeafLoc (createLeaf p f) = p ∧ getLeafFlags (createLeaf p f) = f ||| vmaValid ∧
      getBranchLoc (createBranch p.toNat) = p.toNat ∧ getBranchLoc (createLeaf p f) = 0 ∧
      getPhysLeafLoc (createBranch p.toNat) = 0) ∧
    createLeaf p f ≠ 0 ∧ createBranch p.toNat ≠ 0 ∧
    ∀ q, WindowPage q → createLeaf p f ≠ createBranch q := by
  obtain ⟨hflags, hgt, hppn⟩ := hp.createLeaf_fields hf hbit
  have hleaf : getBranchLoc (createLeaf p f) = 0 := getBranchLoc_eq_zero hgt.ne'
  have hbranch : ∀ q, WindowPage q → getBranchLoc (createBranch q) ≠ 0 := fun q hq => by
    rw [hq.getBranchLoc_createBranch]
    exact hq.pos
  refine ⟨⟨?_, ?_, hp.getBranchLoc_createBranch, hleaf,
    getPhysLeafLoc_eq_zero hp.pteFlags_createBranch.le⟩, fun h => ?_, fun h => ?_, fun q hq h => ?_⟩
  · refine BitVec.eq_of_toNat_eq ?_
    rw [getPhysLeafLoc_eq hgt, window_toNat, hppn, Nat.mod_eq_of_lt p.isLt]
  · refine BitVec.eq_of_toNat_eq ?_
    rw [getLeafFlags_toNat, hflags]
  · rw [h] at hgt
    exact absurd hgt (by decide)
  · exact hbranch _ hp (h ▸ rfl)
  · exact hbranch q hq (h ▸ hleaf)

/-- The last page of the window, readable for the user. -/
theorem pte_decode_lastPage :
    getPhysLeafLoc (createLeaf 0xfffffffffffff000 (vmaRead ||| vmaUser)) = 0xfffffffffffff000 :=
  (pte_decode ⟨by decide, by decide, by decide⟩ (by decide) (by decide)).1.1

end Toastium
