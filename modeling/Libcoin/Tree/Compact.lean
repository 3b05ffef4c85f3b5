/-
Compact bits, and the bounds of a retarget.

`truncated` is what the compact form keeps of a number, the first three bytes of its big-endian form with a sign.
`setCompact_getCompact` says so, and `truncated_le`, `truncated_pos` and `truncated_mono` are all that is used of it.
-/

import Libcoin.Tree.Retarget

namespace Libcoin

/-! ### The size of a number -/

/-- The length of the big-endian form with a sign. -/
def byteSize (n : Nat) : Nat := if n = 0 then 0 else (n.log2 + 1) / 8 + 1

theorem lt_pow_byteSize (n : Nat) : 2 * n < 256 ^ byteSize n := by
  unfold byteSize
  split
  · omega
  · have short : n < 2 ^ (n.log2 + 1) := Nat.lt_log2_self
    have room : 2 ^ (n.log2 + 1 + 1) ≤ 2 ^ (8 * ((n.log2 + 1) / 8 + 1)) := Nat.pow_le_pow_right (by decide) (by omega)
    rw [show (256 : Nat) = 2 ^ 8 from rfl, ← pow_mul]
    rw [pow_succ] at room
    omega

theorem pow_le_of_byteSize {n : Nat} (long : 2 ≤ byteSize n) : 256 ^ (byteSize n - 1) ≤ 2 * n := by
  unfold byteSize at long ⊢
  split at long
  · omega
  · rename_i nonzero
    rw [if_neg nonzero, Nat.add_sub_cancel]
    have least : 2 ^ n.log2 ≤ n := Nat.log2_self_le nonzero
    have part : 2 ^ (8 * ((n.log2 + 1) / 8)) ≤ 2 ^ (n.log2 + 1) := Nat.pow_le_pow_right (by decide) (by omega)
    rw [show (256 : Nat) = 2 ^ 8 from rfl, ← pow_mul]
    rw [pow_succ] at part
    omega

theorem byteSize_mono {m n : Nat} (le : m ≤ n) : byteSize m ≤ byteSize n := by
  rcases Nat.eq_zero_or_pos n with rfl | positive
  · rw [Nat.le_zero.mp le]
  · by_contra longer
    have nonempty : 1 ≤ byteSize n := by
      unfold byteSize
      rw [if_neg (by omega)]
      omega
    have low := pow_le_of_byteSize (n := m) (by omega)
    have high := lt_pow_byteSize n
    have power : 256 ^ byteSize n ≤ 256 ^ (byteSize m - 1) := Nat.pow_le_pow_right (by decide) (by omega)
    omega

/-! ### The compact form -/

/-- The first three bytes. -/
def mantissa (n : Nat) : Nat := n * 256 ^ (3 - byteSize n) / 256 ^ (byteSize n - 3)

/-- What is left of a number when the bytes after the first three are zero. -/
def truncated (n : Nat) : Nat := n / 256 ^ (byteSize n - 3) * 256 ^ (byteSize n - 3)

theorem mantissa_lt (n : Nat) : mantissa n < 2 ^ 23 := by
  unfold mantissa
  rw [Nat.div_lt_iff_lt_mul (by positivity)]
  have grown : 2 * n * 256 ^ (3 - byteSize n) < 256 ^ byteSize n * 256 ^ (3 - byteSize n) :=
    Nat.mul_lt_mul_of_pos_right (lt_pow_byteSize n) (by positivity)
  have total : 256 ^ byteSize n * 256 ^ (3 - byteSize n) = 2 ^ 24 * 256 ^ (byteSize n - 3) := by
    rw [← pow_add, show byteSize n + (3 - byteSize n) = 3 + (byteSize n - 3) by omega, pow_add]
    rfl
  rw [total] at grown
  linarith

theorem truncated_le (n : Nat) : truncated n ≤ n := Nat.div_mul_le_self _ _

theorem truncated_pos {n : Nat} (positive : 0 < n) : 0 < truncated n := by
  refine Nat.mul_pos (Nat.div_pos ?_ (by positivity)) (by positivity)
  rcases Nat.lt_or_ge (byteSize n) 4 with few | many
  · rw [show byteSize n - 3 = 0 by omega]
    exact positive
  · have low := pow_le_of_byteSize (show 2 ≤ byteSize n by omega)
    have part : 256 ^ (byteSize n - 3) * 256 ^ 2 = 256 ^ (byteSize n - 1) := by
      rw [← pow_add]
      congr 1
      omega
    omega

/-- A number with more bytes is not cut below one with fewer. -/
theorem le_truncated {m n : Nat} (shorter : byteSize m < byteSize n) : m ≤ truncated n := by
  rcases Nat.lt_or_ge (byteSize n) 4 with few | many
  · unfold truncated
    rw [show byteSize n - 3 = 0 by omega, pow_zero, Nat.div_one, Nat.mul_one]
    by_contra greater
    have := byteSize_mono (le_of_lt (not_le.mp greater))
    omega
  · have low := pow_le_of_byteSize (show 2 ≤ byteSize n by omega)
    have high := lt_pow_byteSize m
    have power : 256 ^ byteSize m ≤ 256 ^ (byteSize n - 1) := Nat.pow_le_pow_right (by decide) (by omega)
    have whole : 256 ^ (byteSize n - 1) = 2 * (2 ^ 15 * 256 ^ (byteSize n - 3)) := by
      rw [show byteSize n - 1 = 2 + (byteSize n - 3) by omega, pow_add]
      ring
    have kept : 2 ^ 15 * 256 ^ (byteSize n - 3) ≤ truncated n :=
      Nat.mul_le_mul_right _ ((Nat.le_div_iff_mul_le (by positivity)).mpr (by omega))
    omega

theorem truncated_mono {m n : Nat} (le : m ≤ n) : truncated m ≤ truncated n := by
  rcases lt_or_eq_of_le (byteSize_mono le) with shorter | same
  · exact (truncated_le m).trans (le_truncated shorter)
  · unfold truncated
    rw [same]
    exact Nat.mul_le_mul_right _ (Nat.div_le_div_right le)

theorem getCompact_eq {n : Nat} (short : byteSize n < 128) :
    getCompact n = ((byteSize n * 2 ^ 24 + mantissa n : Nat) : Int) := by
  have least := mantissa_lt n
  have first : (if byteSize n ≤ 3 then n * 256 ^ (3 - byteSize n) else n / 256 ^ (byteSize n - 3)) = mantissa n := by
    unfold mantissa
    split
    · rw [show byteSize n - 3 = 0 by omega, pow_zero, Nat.div_one]
    · rw [show 3 - byteSize n = 0 by omega, pow_zero, Nat.mul_one]
  have whole : getCompact n = ((byteSize n * 2 ^ 24 + mantissa n : Nat) : Int).bmod (2 ^ 32) := by
    rw [← first]
    unfold getCompact byteSize
    simp only [Int.natAbs_natCast, if_neg (show ¬(n : Int) < 0 by omega), Nat.add_zero]
  rw [whole]
  exact Int.bmod_eq_of_le (by omega) (by omega)

/-- The compact form keeps the first three bytes of a number. -/
theorem setCompact_getCompact {n : Nat} (short : byteSize n < 128) : setCompact (getCompact n) = truncated n := by
  have least := mantissa_lt n
  rw [getCompact_eq short]
  unfold setCompact
  rw [if_neg (by omega), Int.toNat_natCast]
  have size : (byteSize n * 2 ^ 24 + mantissa n) / 2 ^ 24 = byteSize n := by omega
  have low : (byteSize n * 2 ^ 24 + mantissa n) / 2 ^ 16 % 256 = mantissa n / 2 ^ 16 := by omega
  have bytes : mantissa n / 2 ^ 16 % 128 * 2 ^ 16 + (byteSize n * 2 ^ 24 + mantissa n) % 2 ^ 16 = mantissa n := by omega
  simp only [size, low, bytes]
  rw [if_neg (by omega)]
  congr 1
  unfold truncated mantissa
  split
  · rw [show byteSize n - 3 = 0 by omega, pow_zero, Nat.div_one, Nat.div_one, Nat.mul_one,
      Nat.mul_div_cancel _ (by positivity)]
  · rw [show 3 - byteSize n = 0 by omega, pow_zero, Nat.mul_one]

theorem getCompact_mono {m n : Nat} (short : byteSize n < 128) (le : m ≤ n) : getCompact m ≤ getCompact n := by
  have sizes := byteSize_mono le
  rw [getCompact_eq (by omega), getCompact_eq short, Nat.cast_le]
  have least := mantissa_lt m
  rcases lt_or_eq_of_le sizes with shorter | same
  · omega
  · have first : mantissa m ≤ mantissa n := by
      unfold mantissa
      rw [same]
      exact Nat.div_le_div_right (Nat.mul_le_mul_right _ le)
    omega

/-! ### The arithmetic of a retarget -/

namespace BlockTree

namespace Retarget

theorem clamp_eq {low high : Int} (ordered : low ≤ high) (timespan : Int) :
    clamp low high timespan = max low (min high timespan) := by
  dsimp only [clamp]
  split_ifs <;> omega

/-- The number whose compact form a retarget returns. -/
def retargeted (limit targetTimespan target timespan : Nat) : Nat := min limit (target * timespan / targetTimespan)

theorem scale_eq {limit targetTimespan bits timespan : Nat} {target : Nat} (decoded : setCompact bits = target) :
    scale limit targetTimespan bits timespan = getCompact (retargeted limit targetTimespan target timespan) := by
  have scaled : (setCompact bits * timespan).tdiv targetTimespan = ((target * timespan / targetTimespan : Nat) : Int) := by
    rw [decoded, ← Nat.cast_mul, Int.ofNat_tdiv]
  unfold scale retargeted
  simp only [scaled, Nat.cast_lt]
  rcases Nat.lt_or_ge limit (target * timespan / targetTimespan) with less | ge
  · rw [if_pos less, Nat.min_eq_left less.le]
  · rw [if_neg (not_lt.mpr ge), Nat.min_eq_right ge]

/-- The target is scaled by at most four in both directions. -/
theorem retargeted_bounds {limit spanUnit target timespan : Nat} (positive : 0 < spanUnit) (within : target ≤ limit)
    (least : spanUnit ≤ timespan) (most : timespan ≤ 16 * spanUnit) :
    target / 4 ≤ retargeted limit (4 * spanUnit) target timespan ∧
      retargeted limit (4 * spanUnit) target timespan ≤ limit ∧
      retargeted limit (4 * spanUnit) target timespan ≤ 4 * target := by
  unfold retargeted
  refine ⟨le_min (by omega) ?_, min_le_left _ _, (min_le_right _ _).trans ?_⟩
  · rw [Nat.le_div_iff_mul_le (by omega)]
    calc target / 4 * (4 * spanUnit) = target / 4 * 4 * spanUnit := by ring
      _ ≤ target * spanUnit := Nat.mul_le_mul_right _ (Nat.div_mul_le_self _ _)
      _ ≤ target * timespan := Nat.mul_le_mul_left _ least
  · refine Nat.div_le_of_le_mul ?_
    calc target * timespan ≤ target * (16 * spanUnit) := Nat.mul_le_mul_left _ most
      _ = 4 * spanUnit * (4 * target) := by ring

theorem retargeted_mono (limit targetTimespan target : Nat) {a b : Nat} (le : a ≤ b) :
    retargeted limit targetTimespan target a ≤ retargeted limit targetTimespan target b :=
  min_le_min_left _ (Nat.div_le_div_right (Nat.mul_le_mul_left _ le))

end Retarget

namespace BitcoinChain

/-- The time of a period that a retarget goes by. -/
def period (timespan : Int) : Nat := (max 302400 (min (16 * 302400) (timespan.bmod (2 ^ 32)))).toNat

theorem newBits_eq {bits timespan : Int} {target : Nat} (decoded : setCompact bits = target) (nonneg : 0 ≤ bits) :
    retarget.newBits bits timespan =
      getCompact (Retarget.retargeted (2 ^ 224 - 1) (4 * 302400) target (period timespan)) := by
  obtain ⟨bits, rfl⟩ := Int.eq_ofNat_of_zero_le nonneg
  rw [← Retarget.scale_eq decoded]
  unfold Retarget.newBits period
  rw [Retarget.clamp_eq (by decide), Int.toNat_of_nonneg (by omega)]
  rfl

theorem byteSize_limit {n : Nat} (within : n ≤ 2 ^ 224 - 1) : byteSize n < 128 :=
  lt_of_le_of_lt (byteSize_mono within) (by decide +kernel)

end BitcoinChain

/-! ### The block tree -/

section Tree

variable {Hash : Type} [LinearOrder Hash] [Zero Hash] {known known' : List (BlockRef Hash)} {t t' : BlockTree Hash}
  {b b' : BlockRef Hash}

/-- A block without its time. -/
def untimed (b : BlockRef Hash) : BlockRef Hash := { b with time := 0 }

/-- The time between the first and the last block of the period that ends with a block. -/
def periodSpan (known : List (BlockRef Hash)) (b : BlockRef Hash) : Int := timespan (lineage known b.hash) 2015

omit [Zero Hash] in
theorem newBits_known (rep : Represents known t) (grown : Grown known) (on : b ∈ t.trunk)
    (due : BitcoinChain.retarget.interval ∣ depth known b.hash + 1) :
    BitcoinChain.nextWorkRequired t b = .ok (BitcoinChain.retarget.newBits b.bits (periodSpan known b)) := by
  have nonneg := Represents.depth_nonneg grown (rep.trunk_known on)
  have later : depth known b.hash ≠ 0 := by
    have interval : BitcoinChain.retarget.interval = 2016 := by decide
    rw [interval] at due
    omega
  obtain ⟨rest, path⟩ := grown.exists_lineage (rep.trunk_known on)
  have head : headBits (lineage known b.hash) = b.bits := by rw [show lineage known b.hash = b :: rest from path]; rfl
  unfold BitcoinChain.nextWorkRequired
  rw [nextWork_trunk rep grown on BitcoinChain.regular, trunkBits,
    show pathDepth (lineage known b.hash) = depth known b.hash from rfl, if_neg later, if_pos due, head]
  rfl

omit [LinearOrder Hash] [Zero Hash] in
theorem hashes_untimed (trunk : List (BlockRef Hash)) : hashes (trunk.map untimed) = hashes trunk := by
  rw [hashes, hashes, List.map_map]
  rfl

omit [Zero Hash] in
theorem depth_trunk (rep : Represents known t) (grown : Grown known) {low high : List (BlockRef Hash)}
    (split : t.trunk = low ++ b :: high) : depth known b.hash = low.length := by
  obtain ⟨low', high', split', path⟩ := rep.trunk_split grown (split ▸ List.mem_append_right _ List.mem_cons_self)
  have distinct := (rep.trunk_hashes_nodup grown).of_map
  rw [split] at distinct split'
  have fresh := (List.nodup_append.mp distinct).2.2
  obtain ⟨rfl, -, -⟩ := (List.append_cons_inj_of_notMem
    (fun inside => fresh b inside b List.mem_cons_self rfl)
    (List.nodup_cons.mp ((List.nodup_append.mp distinct).2.1)).1).mp split'
  rw [depth, path, List.length_cons, List.length_reverse]
  omega

/-- Trunks that differ in their times have their blocks at the same heights. -/
theorem depth_untimed (reached : Reached known t) (reached' : Reached known' t')
    (alike : t.trunk.map untimed = t'.trunk.map untimed) (on : b ∈ t.trunk) (on' : b' ∈ t'.trunk)
    (same : untimed b = untimed b') : depth known' b'.hash = depth known b.hash := by
  obtain ⟨grown, rep, -⟩ := reached.kept
  obtain ⟨grown', rep', -⟩ := reached'.kept
  obtain ⟨low, high, split⟩ := List.append_of_mem on
  obtain ⟨low', high', split'⟩ := List.append_of_mem on'
  rw [depth_trunk rep grown split, depth_trunk rep' grown' split']
  have distinct := rep.trunk_hashes_nodup grown
  rw [← hashes_untimed, split, List.map_append, List.map_cons] at distinct
  have distinct := distinct.of_map
  rw [split, split', List.map_append, List.map_append, List.map_cons, List.map_cons, ← same] at alike
  have fresh := (List.nodup_append.mp distinct).2.2
  have lows := ((List.append_cons_inj_of_notMem (fun inside => fresh _ inside _ List.mem_cons_self rfl)
    (List.nodup_cons.mp ((List.nodup_append.mp distinct).2.1)).1).mp alike).1
  rw [← List.length_map (f := untimed), ← lows, List.length_map]

/-- **At a retarget height the decoded target is positive, at most the limit and four times the target of the block, and
at least what the compact form keeps of a quarter of it. On two trunks that differ in their times, the bits and the
target that they decode to are monotone in the time of the period.** -/
theorem nextWorkRequired_bounded (reached : Reached known t) (on : b ∈ t.trunk)
    (due : BitcoinChain.retarget.interval ∣ depth known b.hash + 1) (four : 4 ≤ setCompact b.bits)
    (within : setCompact b.bits ≤ limit32) :
    ∃ bits, BitcoinChain.nextWorkRequired t b = .ok bits ∧ 0 < setCompact bits ∧ setCompact bits ≤ limit32 ∧
      setCompact bits ≤ 4 * setCompact b.bits ∧
      setCompact (getCompact (setCompact b.bits / 4)) ≤ setCompact bits ∧
      ∀ known' (t' : BlockTree Hash) b', Reached known' t' → t.trunk.map untimed = t'.trunk.map untimed →
        b' ∈ t'.trunk → untimed b = untimed b' →
        -2 ^ 31 ≤ periodSpan known b → periodSpan known b ≤ periodSpan known' b' → periodSpan known' b' < 2 ^ 31 →
        ∃ bits', BitcoinChain.nextWorkRequired t' b' = .ok bits' ∧ bits ≤ bits' ∧ setCompact bits ≤ setCompact bits' := by
  obtain ⟨grown, rep, -⟩ := reached.kept
  obtain ⟨target, decoded⟩ := Int.eq_ofNat_of_zero_le (show 0 ≤ setCompact b.bits by omega)
  have nonneg : 0 ≤ b.bits := by
    by_contra negative
    rw [setCompact, if_pos (by omega)] at four
    omega
  have limit : limit32 = ((2 ^ 224 - 1 : Nat) : Int) := by decide
  rw [decoded, limit, Nat.cast_le] at within
  rw [decoded] at four
  have bounds : 302400 ≤ BitcoinChain.period (periodSpan known b) ∧
      BitcoinChain.period (periodSpan known b) ≤ 16 * 302400 := by
    unfold BitcoinChain.period
    omega
  obtain ⟨quarter, most, fourfold⟩ := Retarget.retargeted_bounds (by decide) within bounds.1 bounds.2
  have small := BitcoinChain.byteSize_limit most
  refine ⟨_, newBits_known rep grown on due, ?_⟩
  rw [BitcoinChain.newBits_eq decoded nonneg, setCompact_getCompact small, decoded, limit]
  refine ⟨?_, ?_, ?_, ?_, ?_⟩
  · exact Nat.cast_pos.mpr (truncated_pos (by omega))
  · exact Nat.cast_le.mpr ((truncated_le _).trans most)
  · have := (truncated_le _).trans fourfold
    omega
  · rw [show (target : Int) / 4 = ((target / 4 : Nat) : Int) from rfl,
      setCompact_getCompact (BitcoinChain.byteSize_limit (by omega)), Nat.cast_le]
    exact truncated_mono quarter
  · intro known' t' b' reached' alike on' same low le high
    obtain ⟨grown', rep', -⟩ := reached'.kept
    have bits : b'.bits = b.bits := (congrArg BlockRef.bits same).symm
    have longer : BitcoinChain.period (periodSpan known b) ≤ BitcoinChain.period (periodSpan known' b') := by
      unfold BitcoinChain.period
      rw [Int.bmod_eq_of_le (by omega) (by omega), Int.bmod_eq_of_le (by omega) (by omega)]
      omega
    have more := Retarget.retargeted_mono (2 ^ 224 - 1) (4 * 302400) target longer
    have small' : byteSize (Retarget.retargeted (2 ^ 224 - 1) (4 * 302400) target
        (BitcoinChain.period (periodSpan known' b'))) < 128 := BitcoinChain.byteSize_limit (min_le_left _ _)
    refine ⟨_, newBits_known rep' grown' on' (depth_untimed reached reached' alike on on' same ▸ due), ?_⟩
    rw [bits, BitcoinChain.newBits_eq decoded nonneg, setCompact_getCompact small', Nat.cast_le]
    exact ⟨getCompact_mono small' more, truncated_mono more⟩

end Tree

/-- So many blocks, one every ten minutes, on the block with hash `n`. -/
def Small.ladder : Nat → Nat → List (BlockRef Uint256)
  | _, 0 => []
  | n, k + 1 =>
    { version := 1, hash := .ofNat _ (n + 1), prev := .ofNat _ n, time := 600 * n, bits := 0x1d00ffff } :: ladder (n + 1) k

theorem mem_ladder {n k : Nat} (small : n + k < 2 ^ 256) {h : Uint256} (member : h ∈ hashes (Small.ladder n k)) :
    n < h.val := by
  induction k generalizing n with
  | zero => cases member
  | succ k ih =>
    rcases List.mem_cons.mp member with rfl | later
    · show n < (n + 1) % 2 ^ 256
      rw [Nat.mod_eq_of_lt (by omega)]
      omega
    · have above := ih (by omega) later
      omega

theorem linked_ladder {n k : Nat} (small : n + k < 2 ^ 256) (positive : 0 < k) : Linked (Small.ladder n k) := by
  refine ⟨?_, ?_, ?_⟩
  · obtain ⟨k, rfl⟩ := Nat.exists_eq_succ_of_ne_zero positive.ne'
    exact List.cons_ne_nil _ _
  · clear positive
    induction k generalizing n with
    | zero => exact .nil
    | succ k ih =>
      cases k with
      | zero => exact .singleton _
      | succ k => exact .cons_cons rfl (ih (n := n + 1) (by omega))
  · clear positive
    induction k generalizing n with
    | zero => exact .nil
    | succ k ih =>
      refine List.nodup_cons.mpr ⟨fun again => ?_, ih (by omega)⟩
      have above := mem_ladder (by omega) again
      have own : (n + 1) % 2 ^ 256 = n + 1 := Nat.mod_eq_of_lt (by omega)
      have below : n + 1 < (n + 1) % 2 ^ 256 := above
      omega

theorem ladder_length (n k : Nat) : (Small.ladder n k).length = k := by
  induction k generalizing n with
  | zero => rfl
  | succ k ih => rw [Small.ladder, List.length_cons, ih]

theorem ladder_bits {n k : Nat} {b : BlockRef Uint256} (member : b ∈ Small.ladder n k) : b.bits = 0x1d00ffff := by
  induction k generalizing n with
  | zero => cases member
  | succ k ih =>
    rcases List.mem_cons.mp member with rfl | later
    · rfl
    · exact ih later

/-- The first retarget of a chain. -/
theorem nextWorkRequired_bounded_first :
    ∃ (t : BlockTree Uint256) (tip : BlockRef Uint256) (bits : Int), t.trunk.getLast? = some tip ∧
      BitcoinChain.nextWorkRequired t tip = .ok bits ∧ 0 < setCompact bits ∧
      setCompact bits ≤ 4 * setCompact 0x1d00ffff := by
  have linked : Linked (Small.ladder 0 2016) :=
    linked_ladder (lt_of_lt_of_le (by decide : 0 + 2016 < 2 ^ 12) (Nat.pow_le_pow_right (by decide) (by decide))) (by decide)
  obtain ⟨t, assigned, rep, trunk⟩ := assign_represents linked
  have reached : Reached (Small.ladder 0 2016).reverse t := .assign linked assigned
  obtain ⟨tip, last, -, path⟩ := rep.best_eq
  have on : tip ∈ t.trunk := List.mem_of_getLast? last
  have height : depth (Small.ladder 0 2016).reverse tip.hash = 2015 := by
    rw [depth, path, List.length_reverse, trunk, ladder_length]
    rfl
  have due : BitcoinChain.retarget.interval ∣ depth (Small.ladder 0 2016).reverse tip.hash + 1 := by
    rw [height]
    decide
  have target : tip.bits = 0x1d00ffff := ladder_bits (trunk ▸ on)
  obtain ⟨bits, value, positive, -, most, -⟩ := nextWorkRequired_bounded reached on due
    (by rw [target]; decide +kernel) (by rw [target]; decide +kernel)
  exact ⟨t, tip, bits, last, value, positive, target ▸ most⟩

end BlockTree

end Libcoin
