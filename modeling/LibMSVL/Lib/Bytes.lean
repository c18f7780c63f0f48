/-
  Blocks of bytes and the arrays of fixed-width records laid out in them.

  C containers keep their elements in one untyped block and reach element `i` of width `w` at byte
  offset `i * w`; their operations are `memmove`/`memcpy` calls on that block.  This file turns
  such a call into its effect on RECORDS once and for all:

  * `blit`          — copy a range of bytes from one block into another (`memcpy`), or inside one
                      block with all reads before all writes (`memmove`);
  * `record`        — the `i`-th record of a block;
  * `records`       — a run of consecutive records, as a list;
  * `record_blit`   — a record-aligned `blit` moves records and touches no other record;
  * `records_split` — a run splits at any inner position, which is how an insertion or a removal
                      reads back as `take`/`drop` on lists;
  * `window`, `place` — a block as a part of one memory, and `window_apart`: writing one block
                      leaves the blocks that do not overlap it.

  Nothing here knows which container uses it.
-/

namespace Msvl.Bytes

/-- Contents of a block of memory, by byte offset. -/
abbrev Block := Nat → UInt8

/-- `n` bytes of `f` from offset `src` written into `m` at offset `dst`.  With `f := m` this is
    `memmove`: every byte is read from the old block, so the ranges may overlap. -/
def blit (m : Block) (dst : Nat) (f : Block) (src n : Nat) : Block :=
  fun o => if dst ≤ o ∧ o < dst + n then f (src + (o - dst)) else m o

/-- The `n` bytes at offset `o`. -/
def bytesAt (m : Block) (o n : Nat) : List UInt8 := (List.range n).map fun b => m (o + b)

/-- Record `i` of a block of records of width `w`. -/
def record (m : Block) (w i : Nat) : List UInt8 := bytesAt m (i * w) w

/-- The `n` records from index `i` on. -/
def records (m : Block) (w i n : Nat) : List (List UInt8) :=
  (List.range n).map fun j => record m w (i + j)

@[simp] theorem records_length (m : Block) (w i n : Nat) : (records m w i n).length = n := by
  simp [records]

@[simp] theorem records_zero (m : Block) (w i : Nat) : records m w i 0 = [] := rfl

theorem records_getElem (m : Block) (w i n j : Nat) (h : j < (records m w i n).length) :
    (records m w i n)[j] = record m w (i + j) := by
  simp [records]

theorem records_one (m : Block) (w i : Nat) : records m w i 1 = [record m w i] := by
  simp [records]

/-! ## Byte offsets against record indices -/

/-- A byte of record `i` lies at or after the start of record `a` exactly when `a ≤ i`. -/
theorem start_le_iff {w a i b : Nat} (hb : b < w) : a * w ≤ i * w + b ↔ a ≤ i := by
  constructor
  · intro h
    rcases Nat.lt_or_ge i a with hlt | hge
    · have hm : (i + 1) * w ≤ a * w := Nat.mul_le_mul_right w hlt
      rw [Nat.add_mul, Nat.one_mul] at hm
      omega
    · exact hge
  · intro h
    have hm : a * w ≤ i * w := Nat.mul_le_mul_right w h
    omega

/-- **Record-aligned copying moves whole records**: inside the target run a record comes from the
    source run, outside it stands unchanged. -/
theorem record_blit (m f : Block) (w d s k i : Nat) :
    record (blit m (d * w) f (s * w) (k * w)) w i =
      if d ≤ i ∧ i < d + k then record f w (s + (i - d)) else record m w i := by
  have hin : ∀ b, b < w → ((d * w ≤ i * w + b ∧ i * w + b < d * w + k * w) ↔ (d ≤ i ∧ i < d + k)) := by
    intro b hb
    have h1 : d * w ≤ i * w + b ↔ d ≤ i := start_le_iff hb
    have h2 : (d + k) * w ≤ i * w + b ↔ d + k ≤ i := start_le_iff hb
    rw [Nat.add_mul] at h2
    omega
  split
  · rename_i hi
    apply List.map_congr_left
    intro b hb
    have hb' := List.mem_range.mp hb
    show (if _ then _ else _) = _
    rw [if_pos ((hin b hb').mpr hi)]
    have hmul : (s + (i - d)) * w + d * w = s * w + i * w := by
      rw [← Nat.add_mul, ← Nat.add_mul]
      congr 1
      omega
    have hle : d * w ≤ i * w := Nat.mul_le_mul_right w hi.1
    congr 1
    omega
  · rename_i hi
    apply List.map_congr_left
    intro b hb
    show (if _ then _ else _) = _
    rw [if_neg (fun h => hi ((hin b (List.mem_range.mp hb)).mp h))]

/-- Two blocks that agree on the records of a run have the same run. -/
theorem records_congr {m m' : Block} {w i i' n : Nat}
    (h : ∀ j, j < n → record m w (i + j) = record m' w (i' + j)) :
    records m w i n = records m' w i' n :=
  List.map_congr_left fun j hj => h j (List.mem_range.mp hj)

/-- A run splits at every inner position. -/
theorem records_split (m : Block) (w i n k : Nat) (h : k ≤ n) :
    records m w i n = records m w i k ++ records m w (i + k) (n - k) := by
  obtain ⟨r, rfl⟩ := Nat.exists_eq_add_of_le h
  rw [Nat.add_sub_cancel_left]
  simp [records, List.range_add, Function.comp_def, Nat.add_assoc]

theorem records_take (m : Block) (w i n k : Nat) (h : k ≤ n) :
    (records m w i n).take k = records m w i k := by
  rw [records_split m w i n k h, List.take_left' (records_length ..)]

theorem records_drop (m : Block) (w i n k : Nat) (h : k ≤ n) :
    (records m w i n).drop k = records m w (i + k) (n - k) := by
  rw [records_split m w i n k h, List.drop_left' (records_length ..)]

/-- A block that holds the records `l`. -/
def layout (w : Nat) (l : List (List UInt8)) : Block := fun o => (l.getD (o / w) []).getD (o % w) 0

theorem records_layout {w : Nat} {l : List (List UInt8)} (hl : ∀ e ∈ l, e.length = w) :
    records (layout w l) w 0 l.length = l := by
  refine List.ext_getElem (records_length ..) fun i _ hi => ?_
  rw [records_getElem, Nat.zero_add]
  have hlen := hl _ (List.getElem_mem hi)
  refine List.ext_getElem (by simp [record, bytesAt, hlen]) fun b hb hb' => ?_
  have hbw : b < w := by rw [← hlen]; exact hb'
  have hdiv : (i * w + b) / w = i := by
    rw [Nat.mul_comm, Nat.mul_add_div (by omega), Nat.div_eq_of_lt hbw, Nat.add_zero]
  simp [record, bytesAt, layout, hdiv, Nat.mod_eq_of_lt hbw, List.getD_eq_getElem?_getD, hi, hb']

/-! ## The two shapes every array operation has -/

/-- Open a gap of `k` records at `p` and fill it: the run becomes `take p ++ new ++ drop p`. -/
theorem records_insert (m f : Block) (w n p k s : Nat) (hp : p ≤ n) :
    records (blit (blit m ((p + k) * w) m (p * w) ((n - p) * w)) (p * w) f (s * w) (k * w)) w 0 (n + k)
      = (records m w 0 n).take p ++ records f w s k ++ (records m w 0 n).drop p := by
  rw [records_take m w 0 n p hp, records_drop m w 0 n p hp, Nat.zero_add,
    records_split _ w 0 (n + k) p (by omega), Nat.zero_add,
    records_split _ w p (n + k - p) k (by omega), ← List.append_assoc]
  congr 1
  · congr 1
    · refine records_congr fun j hj => ?_
      rw [record_blit, if_neg (by omega), record_blit, if_neg (by omega)]
    · refine records_congr fun j hj => ?_
      rw [record_blit, if_pos (by omega)]
      congr 1
      omega
  · rw [show n + k - p - k = n - p by omega]
    refine records_congr fun j hj => ?_
    rw [record_blit, if_neg (by omega), record_blit, if_pos (by omega)]
    congr 1
    omega

/-- Close the gap left by the `k` records at `p`: the run becomes `take p ++ drop (p + k)`. -/
theorem records_remove (m : Block) (w n p k : Nat) (hp : p + k ≤ n) :
    records (blit m (p * w) m ((p + k) * w) ((n - (p + k)) * w)) w 0 (n - k)
      = (records m w 0 n).take p ++ (records m w 0 n).drop (p + k) := by
  rw [records_take m w 0 n p (by omega), records_drop m w 0 n (p + k) hp, Nat.zero_add,
    records_split _ w 0 (n - k) p (by omega), Nat.zero_add, show n - k - p = n - (p + k) by omega]
  congr 1
  · refine records_congr fun j hj => ?_
    rw [record_blit, if_neg (by omega)]
  · refine records_congr fun j hj => ?_
    rw [record_blit, if_pos (by omega)]
    congr 1
    omega

/-! ## Blocks in one memory -/

/-- A byte behind the target range of a copy. -/
theorem blit_past {m f : Block} {dst src n o : Nat} (h : dst + n ≤ o) : blit m dst f src n o = m o := by
  rw [blit, if_neg (by omega)]

/-- The block that starts at address `base`. -/
def window (m : Block) (base : Nat) : Block := fun o => m (base + o)

/-- Memory after the block at `base` has been written back. -/
def place (m : Block) (base : Nat) (b : Block) : Block := fun x => if base ≤ x then b (x - base) else m x

/-- `n` bytes at `p` and `k` bytes at `q` do not overlap. -/
def Apart (p n q k : Nat) : Prop := p + n ≤ q ∨ q + k ≤ p

theorem Apart.symm {p n q k : Nat} (h : Apart p n q k) : Apart q k p n := Or.symm h

theorem window_place (m : Block) (base : Nat) (b : Block) : window (place m base b) base = b := by
  funext o
  rw [window, place, if_pos (Nat.le_add_right base o), Nat.add_sub_cancel_left]

/-- **Frame**: a block written in its first `n` bytes only leaves a block apart from these alone. -/
theorem window_apart {m b : Block} {base n q k : Nat} (h : Apart base n q k)
    (hb : ∀ o, n ≤ o → b o = window m base o) :
    ∀ o, o < k → window (place m base b) q o = window m q o := by
  intro o ho
  show (if base ≤ q + o then b (q + o - base) else m (q + o)) = m (q + o)
  by_cases hle : base ≤ q + o
  · have hn : n ≤ q + o - base := by
      rcases h with h | h <;> omega
    rw [if_pos hle, hb _ hn, window, Nat.add_sub_cancel' hle]
  · rw [if_neg hle]

/-- Records lie in the bytes they take up. -/
theorem records_of_agree {m m' : Block} {w n k : Nat} (hk : n * w ≤ k) (h : ∀ o, o < k → m o = m' o) :
    records m w 0 n = records m' w 0 n := by
  refine records_congr fun j hj => List.map_congr_left fun b hb => h _ ?_
  have hb' := List.mem_range.mp hb
  have hle : (j + 1) * w ≤ n * w := Nat.mul_le_mul_right w hj
  rw [Nat.add_mul, Nat.one_mul] at hle
  rw [Nat.zero_add]
  omega

end Msvl.Bytes
