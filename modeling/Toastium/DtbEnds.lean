import Toastium.Dtb
import Toastium.Lasso

/-!
# Runs of the loop of `dtb_dump`

`byte_location` is a `u32`, and the length that the loop adds to it is the padded size of a
property, or of the name of a node, as the blob gives it. A sum of 2³² and more takes the cursor
back, or leaves it where it is.

`Token` are the tokens of a blob with the bytes they take up, and `DtbStep` leads from the cursor
and the depth at one token to those at the next. `dtbDump_ends_iff` : for every blob, the dump
returns or panics exactly if no token takes the cursor back to where the tokens lead to it again,
at the same depth. `not_dtbLoops_of_lengths` : it is enough that no token that is met ends past
the 2³² bytes of the cursor. `dtbDump_endless` is a blob that is never read to its end, with a
property of size `0xfffffff4`.

The blob is not overwritten by the devices, and there is memory for all of them.
-/

namespace Toastium

open Relation

/-! ## The tokens of a blob -/

/-- A token at `loc` with `depth` nodes around it : the bytes it takes up, and the depth after
it. -/
inductive Token (dtb : ℕ → BitVec 8) (loc : ℕ) : ℕ → ℕ → ℕ → Prop
  | node {depth n : ℕ} : dtbReadInt dtb loc = 1 → depth + 1 < 14 →
      dtb (u32 (loc + n + 4)) = 0 → (∀ i < n, dtb (u32 (loc + i + 4)) ≠ 0) →
      Token dtb loc depth ((n + 4) / 4 * 4 + 4) (depth + 1)
  | nodeEnd {depth : ℕ} : dtbReadInt dtb loc = 2 → Token dtb loc (depth + 1) 4 depth
  | nop {depth : ℕ} : dtbReadInt dtb loc = 4 → Token dtb loc depth 4 depth
  | blockEnd {depth : ℕ} : dtbReadInt dtb loc = 9 → Token dtb loc depth 4 depth
  | prop {depth : ℕ} : dtbReadInt dtb loc = 3 →
      Token dtb loc depth (u32 (dtbReadInt dtb (u32 (loc + 4)) + 3) / 4 * 4 + 12) depth

/-- From the cursor and the depth at a token of the block to those at the next token. -/
def DtbStep (dtb : ℕ → BitVec 8) (p q : ℕ × ℕ) : Prop :=
  p.1 < u32 (dtbReadInt dtb 8 + dtbReadInt dtb 36) ∧
    ∃ len, Token dtb p.1 p.2 len q.2 ∧ q.1 = u32 (p.1 + len)

/-- A token of the block takes the cursor back, or leaves it where it is, and the tokens from
there on lead to it again at the same depth. -/
structure DtbLoops (dtb : ℕ → BitVec 8) : Prop where
  magic : dtbReadInt dtb 0 = 0xd00dfeed
  version : dtbReadInt dtb 24 = 16
  back : ∃ p q, ReflTransGen (DtbStep dtb) (dtbReadInt dtb 8, 0) p ∧ DtbStep dtb p q ∧
    q.1 ≤ p.1 ∧ ReflTransGen (DtbStep dtb) q p

/-- A call returned, or panicked. -/
def Ended {β : Type} : Except (Fault Panic) β → Prop
  | .ok _ => True
  | .error (.panic _) => True
  | .error _ => False

/-- The loop over the tokens of a blob, and those over the names, end after finitely many
iterations, and the dump returns or panics. -/
def DtbEnds (dtb : ℕ → BitVec 8) (mem : ℕ → DeviceInfo) (outputLocation : ℕ) : Prop :=
  ∃ n, ∀ fuel ≥ n, Ended (dtbDump fuel dtb mem outputLocation)

theorem u32_lt (n : ℕ) : u32 n < 2 ^ 32 :=
  Nat.mod_lt _ (by decide)

theorem dtbReadInt_lt (dtb : ℕ → BitVec 8) (ptr : ℕ) : dtbReadInt dtb ptr < 2 ^ 32 := by
  have h0 := (dtb ptr).isLt
  have h1 := (dtb (ptr + 1)).isLt
  have h2 := (dtb (ptr + 2)).isLt
  have h3 := (dtb (ptr + 3)).isLt
  rw [dtbReadInt_eq]
  omega

theorem u32_add (m n : ℕ) : u32 (u32 m + n) = u32 (m + n) :=
  Nat.mod_add_mod _ _ _

section Tokens

variable {dtb : ℕ → BitVec 8} {loc depth len len' depth' depth'' : ℕ} {p q q' : ℕ × ℕ}

/-- A name has one end. -/
theorem name_unique {m n : ℕ} (hm : dtb (u32 (loc + m + 4)) = 0)
    (hm' : ∀ i < m, dtb (u32 (loc + i + 4)) ≠ 0) (hn : dtb (u32 (loc + n + 4)) = 0)
    (hn' : ∀ i < n, dtb (u32 (loc + i + 4)) ≠ 0) : m = n := by
  rcases Nat.lt_trichotomy m n with h | h | h
  · exact absurd hm (hn' m h)
  · exact h
  · exact absurd hn (hm' n h)

theorem Token.unique (h : Token dtb loc depth len depth') (h' : Token dtb loc depth len' depth'') :
    len = len' ∧ depth' = depth'' := by
  cases h with
  | node hread _ hend hne =>
    cases h' with
    | node _ _ hend' hne' =>
      obtain rfl := name_unique hend hne hend' hne'
      exact ⟨rfl, rfl⟩
    | _ hread' => omega
  | nodeEnd hread => cases h' <;> first | exact ⟨rfl, rfl⟩ | omega
  | nop hread => cases h' <;> first | exact ⟨rfl, rfl⟩ | omega
  | blockEnd hread => cases h' <;> first | exact ⟨rfl, rfl⟩ | omega
  | prop hread => cases h' <;> first | exact ⟨rfl, rfl⟩ | omega

theorem DtbStep.unique (h : DtbStep dtb p q) (h' : DtbStep dtb p q') : q = q' := by
  obtain ⟨-, len, htok, hq⟩ := h
  obtain ⟨-, len', htok', hq'⟩ := h'
  obtain ⟨rfl, hdepth⟩ := htok.unique htok'
  exact Prod.ext (hq.trans hq'.symm) hdepth

/-- The cursor is a `u32`, and at most 13 nodes are entered. -/
theorem DtbStep.bound (h : DtbStep dtb p q) (hp : p.2 ≤ 13) : q.1 < 2 ^ 32 ∧ q.2 ≤ 13 := by
  obtain ⟨-, len, htok, hq⟩ := h
  refine ⟨hq ▸ u32_lt _, ?_⟩
  generalize p.2 = depth at htok hp
  generalize q.2 = depth' at htok
  cases htok <;> omega

theorem Token.len_pos (h : Token dtb loc depth len depth') : 0 < len := by
  cases h <;> omega

/-- Only a token that ends past the 2³² bytes of the cursor takes it back. -/
theorem DtbStep.wraps (h : DtbStep dtb p q) (hback : q.1 ≤ p.1) :
    ∃ len, Token dtb p.1 p.2 len q.2 ∧ 2 ^ 32 ≤ p.1 + len := by
  obtain ⟨-, len, htok, hq⟩ := h
  refine ⟨len, htok, ?_⟩
  by_contra hlt
  rw [u32_of_lt (by omega)] at hq
  have := htok.len_pos
  omega

/-- The cursors and depths that are met are finitely many. -/
theorem finite_reached (dtb : ℕ → BitVec 8) :
    {p | ReflTransGen (DtbStep dtb) (dtbReadInt dtb 8, 0) p}.Finite := by
  refine ((Set.finite_Iio (2 ^ 32)).prod (Set.finite_Iic 13)).subset fun p hp => ?_
  have hbound : p.1 < 2 ^ 32 ∧ p.2 ≤ 13 := by
    induction hp with
    | refl => exact ⟨dtbReadInt_lt dtb 8, Nat.zero_le _⟩
    | tail _ hstep ih => exact hstep.bound ih.2
  exact hbound

/-- The tokens have no end exactly if one of them takes the cursor to where they lead to it
again. -/
theorem endless_iff_back (dtb : ℕ → BitVec 8) :
    Endless (DtbStep dtb) (dtbReadInt dtb 8, 0) ↔
      ∃ p q, ReflTransGen (DtbStep dtb) (dtbReadInt dtb 8, 0) p ∧ DtbStep dtb p q ∧
        q.1 ≤ p.1 ∧ ReflTransGen (DtbStep dtb) q p := by
  have hdet : ∀ p q q', DtbStep dtb p q → DtbStep dtb p q' → q = q' :=
    fun _ _ _ h h' => h.unique h'
  rw [endless_iff_lasso hdet (finite_reached dtb), lasso_iff_back Prod.fst]

/-- Blobs whose tokens all end in the 2³² bytes of the cursor, as those of a blob of less than
2³² bytes with true lengths, are read to their end. -/
theorem not_dtbLoops_of_lengths (h : ∀ p len depth, ReflTransGen (DtbStep dtb)
    (dtbReadInt dtb 8, 0) p → Token dtb p.1 p.2 len depth → p.1 + len < 2 ^ 32) :
    ¬DtbLoops dtb := by
  rintro ⟨-, -, p, q, hp, hpq, hback, -⟩
  obtain ⟨len, htok, hwrap⟩ := hpq.wraps hback
  exact (h p len q.2 hp htok).not_ge hwrap

end Tokens

/-! ## One token -/

namespace DtbState

variable {st : DtbState}

/-- The devices that the next one may be linked to as a child. -/
structure Linkable (st : DtbState) : Prop where
  cur_pos : 0 < st.curLoc
  parents : ∀ j < st.nodeDepth, st.nodeStack j ≠ 0

/-- A new device at `cur_loc`, which is the last one of its depth from now on. -/
theorem Linkable.addDevice (h : st.Linkable) (init : DeviceInfo → DeviceInfo) :
    ∃ mem, st.addDevice init = .ok { st with
      mem := mem
      curLoc := st.curLoc + deviceInfoSize
      nodeStack := Function.update st.nodeStack st.nodeDepth st.curLoc } := by
  unfold DtbState.addDevice
  by_cases hd : 0 < st.nodeDepth
  · simp only [if_pos hd, linkParent_eq _ _ (h.parents _ (Nat.sub_lt hd Nat.one_pos)), ok_bind,
      pure_eq_ok]
    exact ⟨_, rfl⟩
  · simp only [if_neg hd, ok_bind, pure_eq_ok]
    exact ⟨_, rfl⟩

/-- After a new device, in it if it is a node. -/
theorem Linkable.added (h : st.Linkable) (mem : ℕ → DeviceInfo) (depth : ℕ)
    (hdepth : depth ≤ st.nodeDepth + 1) : Linkable
      ⟨mem, st.curLoc + deviceInfoSize, Function.update st.nodeStack st.nodeDepth st.curLoc,
        depth⟩ where
  cur_pos := Nat.add_pos_left h.cur_pos _
  parents j hj := by
    change j < depth at hj
    change Function.update st.nodeStack st.nodeDepth st.curLoc j ≠ 0
    rcases eq_or_ne j st.nodeDepth with rfl | hne
    · rw [Function.update_self]
      exact h.cur_pos.ne'
    · rw [Function.update_of_ne hne]
      exact h.parents j (by omega)

theorem Linkable.leave (h : st.Linkable) : st.leave.Linkable where
  cur_pos := h.cur_pos
  parents j hj := by
    change j < st.nodeDepth - 1 at hj
    change Function.update st.nodeStack st.nodeDepth 0 j ≠ 0
    rw [Function.update_of_ne (by omega)]
    exact h.parents j (by omega)

end DtbState

section Loop

variable {dtb : ℕ → BitVec 8} {stringsOffset limit loc : ℕ} {st : DtbState}

/-- The loop over a name stops at its first zero. -/
theorem nameLength_first {n : ℕ} (hend : dtb (u32 (loc + n + 4)) = 0)
    (hne : ∀ i < n, dtb (u32 (loc + i + 4)) ≠ 0) : ∀ {fuel offset : ℕ}, offset ≤ n →
      n < offset + fuel → nameLength dtb loc fuel offset = .ok n
  | 0, _, hle, hlt => by omega
  | fuel + 1, offset, hle, hlt => by
    rw [nameLength]
    rcases Nat.eq_or_lt_of_le hle with rfl | hoff
    · rw [if_pos hend]
    · rw [if_neg (hne offset hoff), nameLength_first hend hne hoff (by omega)]

/-- The name of a node at `loc` has a first zero, if there is a zero. -/
theorem exists_first (hzero : ∃ i < limit, dtb (u32 (loc + i + 4)) = 0) :
    ∃ n < limit, dtb (u32 (loc + n + 4)) = 0 ∧ ∀ i < n, dtb (u32 (loc + i + 4)) ≠ 0 := by
  obtain ⟨i, hi, hzero⟩ := hzero
  have hex : ∃ n, dtb (u32 (loc + n + 4)) = 0 := ⟨i, hzero⟩
  exact ⟨Nat.find hex, (Nat.find_min' hex hzero).trans_lt hi, Nat.find_spec hex,
    fun j hj => Nat.find_min hex hj⟩

/-- The version in the header is three zeros and 16, and the index of a name comes to them after
less than 2³² bytes. -/
theorem exists_zero (hversion : dtbReadInt dtb 24 = 16) (loc : ℕ) :
    ∃ i < 2 ^ 32, dtb (u32 (loc + i + 4)) = 0 := by
  have hzero : dtb 24 = 0 := by
    rw [dtbReadInt_eq] at hversion
    refine BitVec.eq_of_toNat_eq ?_
    change (dtb 24).toNat = 0
    omega
  refine ⟨u32 (24 + (2 ^ 32 - u32 (loc + 4))), u32_lt _, ?_⟩
  have hindex : u32 (loc + u32 (24 + (2 ^ 32 - u32 (loc + 4))) + 4) = 24 := by
    unfold u32
    omega
  rw [hindex, hzero]

/-- The loop takes the token at `loc`. -/
theorem dtbToken_of_token (hname : ∃ i < limit, dtb (u32 (loc + i + 4)) = 0) (hst : st.Linkable)
    {len depth : ℕ} (htok : Token dtb loc st.nodeDepth len depth) :
    ∃ loc' st', dtbToken dtb stringsOffset limit loc st = .ok (loc', st') ∧ st'.Linkable ∧
      st'.nodeDepth = depth ∧ u32 (loc' + 4) = u32 (loc + len) := by
  generalize hd : st.nodeDepth = d at htok
  cases htok with
  | node hread hdepth hend hne =>
    rename_i n
    obtain ⟨m, hm, hend', hne'⟩ := exists_first hname
    obtain rfl := name_unique hend' hne' hend hne
    obtain ⟨mem, hadd⟩ := hst.addDevice fun node => { node with
      name := u32 (loc + 4), isLeaf := false, firstChild := 0, nextSibling := 0 }
    have hlen := nameLength_first hend hne (Nat.zero_le _) (by rwa [Nat.zero_add])
    refine ⟨u32 (loc + (m + 4) / 4 * 4), _, ?_, hst.added mem (st.nodeDepth + 1) le_rfl,
      by rw [hd], ?_⟩
    · simp only [dtbToken, hread, hadd, ok_bind]
      rw [if_neg (by omega)]
      simp only [hlen, ok_bind, pure_eq_ok]
    · rw [u32_add, Nat.add_assoc]
  | nodeEnd hread =>
    refine ⟨loc, st.leave, dtbToken_leave hread (by omega), hst.leave, ?_, rfl⟩
    change st.nodeDepth - 1 = _
    omega
  | nop hread => exact ⟨loc, st, dtbToken_nop hread, hst, hd, rfl⟩
  | blockEnd hread => exact ⟨loc, st, dtbToken_end hread, hst, hd, rfl⟩
  | prop hread =>
    obtain ⟨mem, hadd⟩ := hst.addDevice fun _ => {
      firstChild := 0
      nextSibling := 0
      name := u32 (stringsOffset + dtbReadInt dtb (u32 (loc + 8)))
      isLeaf := true
      value := u32 (loc + 12)
      valueLen := dtbReadInt dtb (u32 (loc + 4)) }
    refine ⟨u32 (loc + (u32 (dtbReadInt dtb (u32 (loc + 4)) + 3) / 4 * 4 + 8)), _, ?_,
      hst.added mem st.nodeDepth (Nat.le_succ _), hd, ?_⟩
    · simp only [dtbToken, hread, hadd, ok_bind, pure_eq_ok]
    · rw [u32_add, Nat.add_assoc, Nat.add_assoc]

/-- The loop panics where there is no token. -/
theorem dtbToken_of_not_token (hname : ∃ i < limit, dtb (u32 (loc + i + 4)) = 0)
    (hst : st.Linkable) (hnone : ∀ len depth, ¬Token dtb loc st.nodeDepth len depth) :
    ∃ e, dtbToken dtb stringsOffset limit loc st = .error (.panic e) := by
  rcases eq_or_ne (dtbReadInt dtb loc) 1 with h1 | h1
  · obtain ⟨n, -, hend, hne⟩ := exists_first hname
    have hdeep : st.nodeDepth + 1 ≥ 14 := by
      by_contra hlt
      exact hnone _ _ (.node h1 (by omega) hend hne)
    obtain ⟨mem, hadd⟩ := hst.addDevice fun node => { node with
      name := u32 (loc + 4), isLeaf := false, firstChild := 0, nextSibling := 0 }
    refine ⟨.dtbStackDepthToHigh, ?_⟩
    simp only [dtbToken, h1, hadd, ok_bind]
    rw [if_pos hdeep]
    rfl
  rcases eq_or_ne (dtbReadInt dtb loc) 2 with h2 | h2
  · have hzero : st.nodeDepth = 0 := by
      by_contra hpos
      obtain ⟨d, hd⟩ := Nat.exists_eq_succ_of_ne_zero hpos
      exact hnone 4 d (hd ▸ .nodeEnd h2)
    refine ⟨.dtbStackDepthLessZero, ?_⟩
    simp only [dtbToken, h2, if_pos hzero]
  have h3 : dtbReadInt dtb loc ≠ 3 := fun h => hnone _ _ (.prop h)
  have h4 : dtbReadInt dtb loc ≠ 4 := fun h => hnone _ _ (.nop h)
  have h9 : dtbReadInt dtb loc ≠ 9 := fun h => hnone _ _ (.blockEnd h)
  refine ⟨.dtbUnexpectedCode, ?_⟩
  unfold dtbToken
  split <;> first | contradiction | rfl

section Run

variable (hname : ∀ loc, ∃ i < limit, dtb (u32 (loc + i + 4)) = 0)
include hname

/-- While there are tokens, the loop goes on. -/
theorem dtbLoop_of_steps : ∀ {n : ℕ} {loc : ℕ} {st : DtbState} {q : ℕ × ℕ}, st.Linkable →
    Steps (DtbStep dtb) n (loc, st.nodeDepth) q →
    dtbLoop dtb stringsOffset limit (u32 (dtbReadInt dtb 8 + dtbReadInt dtb 36)) n loc st =
      .error .fuel
  | 0, _, _, _, _, _ => rfl
  | n + 1, loc, st, q, hst, ⟨⟨loc', depth⟩, ⟨hlt, len, htok, hloc⟩, hrest⟩ => by
    obtain ⟨l, st', hrun, hst', hdepth, hl⟩ := dtbToken_of_token (hname loc) hst htok
    change st'.nodeDepth = depth at hdepth
    subst hdepth
    change loc' = _ at hloc
    rw [dtbLoop, if_pos hlt, hrun, ok_bind]
    change dtbLoop dtb stringsOffset limit _ n (u32 (l + 4)) st' = _
    rw [hl, ← hloc, dtbLoop_of_steps hst' hrest]

/-- Where the tokens end, the loop returns or panics. -/
theorem dtbLoop_ended : ∀ {n : ℕ} {loc : ℕ} {st : DtbState}, st.Linkable →
    (¬∃ q, Steps (DtbStep dtb) n (loc, st.nodeDepth) q) →
    Ended (dtbLoop dtb stringsOffset limit (u32 (dtbReadInt dtb 8 + dtbReadInt dtb 36)) n loc st)
  | 0, loc, st, _, hnone => absurd ⟨_, rfl⟩ hnone
  | n + 1, loc, st, hst, hnone => by
    rw [dtbLoop]
    split_ifs with hlt
    · by_cases htok : ∃ len depth, Token dtb loc st.nodeDepth len depth
      · obtain ⟨len, depth, htok⟩ := htok
        obtain ⟨l, st', hrun, hst', hdepth, hl⟩ := dtbToken_of_token (hname loc) hst htok
        subst hdepth
        rw [hrun, ok_bind]
        change Ended (dtbLoop dtb stringsOffset limit _ n (u32 (l + 4)) st')
        rw [hl]
        refine dtbLoop_ended hst' ?_
        rintro ⟨q, hq⟩
        exact hnone ⟨q, _, ⟨hlt, len, htok, rfl⟩, hq⟩
      · obtain ⟨e, he⟩ := dtbToken_of_not_token (hname loc) hst fun len depth h =>
          htok ⟨len, depth, h⟩
        rw [he]
        trivial
    · trivial

end Run

end Loop

/-! ## The dump -/

section Dump

variable {dtb : ℕ → BitVec 8} {outputLocation fuel : ℕ}

theorem linkable_init (mem : ℕ → DeviceInfo) (hout : 0 < outputLocation) :
    DtbState.Linkable ⟨mem, outputLocation, fun _ => 0, 0⟩ :=
  ⟨hout, fun j hj => absurd hj (Nat.not_lt_zero j)⟩

/-- The dump of a blob with a valid header is the loop. -/
theorem dtbDump_ended_iff (mem : ℕ → DeviceInfo) (hmagic : dtbReadInt dtb 0 = 0xd00dfeed)
    (hversion : dtbReadInt dtb 24 = 16) (hout : 0 < outputLocation) :
    Ended (dtbDump fuel dtb mem outputLocation) ↔
      Ended (dtbLoop dtb (dtbReadInt dtb 12) fuel (u32 (dtbReadInt dtb 8 + dtbReadInt dtb 36)) fuel
        (dtbReadInt dtb 8) ⟨mem, outputLocation, fun _ => 0, 0⟩) := by
  simp only [dtbDump, hmagic, hversion, ne_eq, not_true_eq_false, if_false, hout.ne', pure_eq_ok]
  cases dtbLoop dtb (dtbReadInt dtb 12) fuel _ fuel (dtbReadInt dtb 8) _ with
  | error e => cases e <;> rfl
  | ok st => rfl

/-- The dump of a blob with another header panics. -/
theorem dtbDump_ended_of_header (mem : ℕ → DeviceInfo)
    (hheader : dtbReadInt dtb 0 ≠ 0xd00dfeed ∨ dtbReadInt dtb 24 ≠ 16) :
    Ended (dtbDump fuel dtb mem outputLocation) := by
  by_cases hmagic : dtbReadInt dtb 0 ≠ 0xd00dfeed
  · simp only [dtbDump, if_pos hmagic]
    trivial
  · simp only [dtbDump, if_neg hmagic, if_pos (hheader.resolve_left hmagic), pure_eq_ok]
    trivial

/-- Names end in the 2³² bytes of the cursor, and with them the tokens decide. -/
theorem dtbDump_of_fuel (mem : ℕ → DeviceInfo) (hmagic : dtbReadInt dtb 0 = 0xd00dfeed)
    (hversion : dtbReadInt dtb 24 = 16) (hout : 0 < outputLocation) (hfuel : 2 ^ 32 ≤ fuel) :
    Ended (dtbDump fuel dtb mem outputLocation) ↔
      ¬∃ q, Steps (DtbStep dtb) fuel (dtbReadInt dtb 8, 0) q := by
  have hname : ∀ loc, ∃ i < fuel, dtb (u32 (loc + i + 4)) = 0 := fun loc => by
    obtain ⟨i, hi, hzero⟩ := exists_zero hversion loc
    exact ⟨i, hi.trans_le hfuel, hzero⟩
  rw [dtbDump_ended_iff mem hmagic hversion hout]
  constructor
  · rintro hended ⟨q, hq⟩
    rw [dtbLoop_of_steps hname (linkable_init mem hout) hq] at hended
    exact hended
  · exact dtbLoop_ended hname (linkable_init mem hout)

/-- A blob whose tokens lead back is not read to its end. -/
theorem DtbLoops.not_ends (h : DtbLoops dtb) (mem : ℕ → DeviceInfo) (hout : 0 < outputLocation) :
    ¬DtbEnds dtb mem outputLocation := by
  rintro ⟨n, hn⟩
  have hended := hn (max n (2 ^ 32)) (le_max_left _ _)
  rw [dtbDump_of_fuel mem h.magic h.version hout (le_max_right _ _)] at hended
  exact hended ((endless_iff_back dtb).2 h.back _)

/-- The dump ends on every blob whose tokens do not lead back. -/
theorem dtbEnds_of_not_loops (h : ¬DtbLoops dtb) (mem : ℕ → DeviceInfo)
    (hout : 0 < outputLocation) : DtbEnds dtb mem outputLocation := by
  by_cases hheader : dtbReadInt dtb 0 ≠ 0xd00dfeed ∨ dtbReadInt dtb 24 ≠ 16
  · exact ⟨0, fun fuel _ => dtbDump_ended_of_header mem hheader⟩
  · push Not at hheader
    obtain ⟨hmagic, hversion⟩ := hheader
    have hends : ¬Endless (DtbStep dtb) (dtbReadInt dtb 8, 0) := fun hendless =>
      h ⟨hmagic, hversion, (endless_iff_back dtb).1 hendless⟩
    obtain ⟨n, hn⟩ := not_forall.1 hends
    refine ⟨max n (2 ^ 32), fun fuel hfuel => ?_⟩
    rw [dtbDump_of_fuel mem hmagic hversion hout ((le_max_right _ _).trans hfuel)]
    rintro ⟨q, hq⟩
    obtain ⟨k, rfl⟩ := Nat.exists_eq_add_of_le ((le_max_left n (2 ^ 32)).trans hfuel)
    obtain ⟨c, hc, -⟩ := hq.split
    exact hn ⟨c, hc⟩

/-- The tokens of a well-formed device tree do not lead back. -/
theorem DtBlob.not_loops {items : DtItems} (hblob : DtBlob dtb items) : ¬DtbLoops dtb := by
  intro hloops
  refine hloops.not_ends (fun _ => ⟨0, 0, 0, false, 0, 0⟩) Nat.one_pos
    ⟨dtbReadInt dtb 36, fun fuel hfuel => ?_⟩
  obtain ⟨r, hr, -⟩ := dtbDump_dumped hblob (fun _ => ⟨0, 0, 0, false, 0, 0⟩) Nat.one_pos hfuel
  rw [hr]
  trivial

end Dump

/-- The dump of a blob ends exactly if no token takes the cursor back to where the tokens lead to
it again at the same depth. -/
theorem dtbDump_ends_iff (dtb : ℕ → BitVec 8) (mem : ℕ → DeviceInfo) {outputLocation : ℕ}
    (hout : 0 < outputLocation) : DtbEnds dtb mem outputLocation ↔ ¬DtbLoops dtb :=
  ⟨fun hends hloops => hloops.not_ends mem hout hends, fun h => dtbEnds_of_not_loops h mem hout⟩

theorem dtbDump_ends_sample :
    DtbEnds sampleDtb (fun _ => ⟨0, 0, 0, false, 0, 0⟩) 4096 ↔ ¬DtbLoops sampleDtb :=
  dtbDump_ends_iff sampleDtb _ (by decide)

/-- A device tree with one property in its root, of size `0xfffffff4`. -/
def endlessDtb (p : ℕ) : BitVec 8 :=
  ((wordBytes 0xd00dfeed ++ wordBytes 70 ++ wordBytes 40 ++ wordBytes 68 ++ wordBytes 0 ++
    wordBytes 17 ++ wordBytes 16 ++ wordBytes 0 ++ wordBytes 2 ++ wordBytes 28 ++
    wordBytes 1 ++ [0, 0, 0, 0] ++ wordBytes 3 ++ wordBytes 0xfffffff4 ++ wordBytes 0 ++
    wordBytes 2 ++ wordBytes 9 ++ [112, 0]).getD p 0)

/-- The cursor stays at the property, as −12 + 8 + 4 is added to it. -/
theorem endlessDtb_loops : DtbLoops endlessDtb where
  magic := by decide
  version := by decide
  back := by
    have hnode : DtbStep endlessDtb (40, 0) (48, 1) := by
      refine ⟨by decide, 8, ?_, by decide⟩
      exact .node (n := 0) (by decide) (by decide) (by decide) fun i hi => by omega
    have hprop : DtbStep endlessDtb (48, 1) (48, 1) := by
      refine ⟨by decide, 2 ^ 32, ?_, by decide⟩
      exact .prop (by decide)
    exact ⟨(48, 1), (48, 1), .single hnode, hprop, le_rfl, .refl⟩

theorem dtbDump_endless : ¬DtbEnds endlessDtb (fun _ => ⟨0, 0, 0, false, 0, 0⟩) 4096 :=
  endlessDtb_loops.not_ends _ (by decide)

end Toastium
