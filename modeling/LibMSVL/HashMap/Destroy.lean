/-
  The end of a hash map: calls on its buckets, then `dyn_hash_map_destroy`.

  Of what `dyn_hash_map.h` declares between creation and destruction, nothing is defined; what the
  buckets are is `dyn_array_t`s, so what happens to them is a run of dynamic array calls.  A bucket that
  grows gets another block for its buffer and gives the old one back.

  * `dynHashMapDestroy` — destroys every bucket the capacity counts, then the table and the map;
  * `Live` — the books between calls: a block that was obtained is released or held by the map, and
    an element that entered was destructed or stands in a bucket;
  * `lifeOf` — all that can happen to a live map, with the elements that entered it as a ghost;
  * `live_step` — the invariant; `life_of_map` — the headline.

  Where the map comes from is left open: `dyn_hash_map_create` gives it a block that is too small
  (`create_iff`).
-/
import LibMSVL.HashMap.Create
import LibMSVL.DynArray.Extract
import LibMSVL.Lib.System

namespace Msvl.HashMap

open Msvl.Bytes Msvl.DynArray Msvl.Trans

/-! ## Destruction -/

/-- The loop over the table, `n` buckets from index `i` on: the arrays as they are when they are freed,
    and what is done to memory.  Behind the end of the table nothing is defined. -/
def destroyFrom (m : DynHashMap) : Nat → Nat → List Event → Option (List DynArrayT × List Event)
  | 0, _, log => some ([], log)
  | n + 1, i, log =>
    m.buckets[i]?.bind fun b =>
      (destroyFrom m n (i + 1) (log ++ [.free b.buffer, .free b.addr])).map
        fun (arrs, log) => (dynArrayDestroy b.arr :: arrs, log)

/-- `dyn_hash_map_destroy`. -/
def dynHashMapDestroy (m : DynHashMap) (log : List Event) : Option (List DynArrayT × List Event) :=
  (destroyFrom m m.capacity 0 log).map fun (arrs, log) => (arrs, log ++ [.free m.table, .free m.addr])

/-! ## The life of a map -/

/-- A call on one bucket; `answer` is what `realloc` answers with, if it is asked: the block and what it
    holds. -/
structure Call where
  bucket : Nat
  op : Op
  answer : Option (Nat × Block)

/-- The map, what was done to memory, and the elements that entered. -/
structure Life where
  map : DynHashMap
  log : List Event
  entered : List Elem

/-- The bucket after a call that made the array `a` of it, and what `realloc` did. -/
def Bucket.written (b : Bucket) (a : DynArrayT) : Option (Nat × Block) → Bucket × List Event
  | none => ({ b with arr := a }, [])
  | some (block, _) =>
    if a.capacity = b.arr.capacity then ({ b with arr := a }, [])
    else ({ b with arr := a, buffer := block }, [.malloc block a.bytes, .free b.buffer])

def Life.step (s : Life) (c : Call) : Option Life :=
  s.map.buckets[c.bucket]?.bind fun b =>
    (c.op.run dynMaxCapacity (c.answer.map Prod.snd) b.arr).map fun r =>
      let (b', events) := b.written r.arr c.answer
      { map := { s.map with buckets := s.map.buckets.set c.bucket b' },
        log := s.log ++ events,
        entered := s.entered ++ Step.inserted ⟨c.op, c.answer.map Prod.snd, b.arr, r⟩ }

/-- Indices are in range and objects lie outside, `realloc` answers with a block not obtained before,
    and gives what it was asked for. -/
def Allowed (s : Life) (c : Call) : Prop :=
  ∀ b, s.map.buckets[c.bucket]? = some b → c.op.InRange b.arr ∧
    (∀ block junk, c.answer = some (block, junk) → gets block s.log = 0) ∧
    ∀ r, c.op.run dynMaxCapacity (c.answer.map Prod.snd) b.arr = some r → Roomy r.arr

/-- Every element a bucket has destructed or holds. -/
def Bucket.elements (b : Bucket) : List Elem := b.arr.destructed ++ contents b.arr

/-- The books between calls. -/
structure Live (d : Bool) (s : Life) : Prop where
  length : s.map.buckets.length = s.map.capacity
  sound : ∀ b ∈ s.map.buckets, Wf b.arr ∧ Roomy b.arr ∧ b.arr.destructor = d
  once : ∀ b, gets b s.log ≤ 1
  balance : ∀ b, gets b s.log = frees b s.log + s.map.blocks.count b
  ledger : d = true → (s.map.buckets.flatMap Bucket.elements).Perm s.entered

/-- Everything that can happen to a live map. -/
def lifeOf (d : Bool) : System Life Call where
  init := Live d
  step s c t := s.step c = some t

/-! ## Calls -/

/-- Replacing one entry of a list, up to order. -/
theorem flatMap_set_perm {α β : Type} (f : α → List β) :
    ∀ {l : List α} {i : Nat} {x : α} (y : α), l[i]? = some x →
      ((l.set i y).flatMap f ++ f x).Perm (l.flatMap f ++ f y)
  | a :: l, 0, x, y, h => by
    obtain rfl := Option.some.inj h
    rw [List.set_cons_zero, List.flatMap_cons, List.flatMap_cons, List.append_assoc (f a)]
    refine List.perm_append_comm.trans ?_
    exact List.perm_append_comm.append_left (f a)
  | a :: l, i + 1, x, y, h => by
    have ih := flatMap_set_perm f (l := l) (i := i) y h
    rw [List.set_cons_succ, List.flatMap_cons, List.flatMap_cons, List.append_assoc, List.append_assoc]
    exact ih.append_left (f a)

/-- What `realloc` did: the blocks of the bucket were exchanged one for one. -/
theorem written_balance (b : Bucket) (a : DynArrayT) (answer : Option (Nat × Block)) (k : Nat) :
    gets k (b.written a answer).2 + b.blocks.count k
      = frees k (b.written a answer).2 + (b.written a answer).1.blocks.count k := by
  rcases answer with _ | ⟨block, junk⟩
  · rfl
  · by_cases hcap : a.capacity = b.arr.capacity
    · rw [Bucket.written, if_pos hcap]
      rfl
    · rw [Bucket.written, if_neg hcap]
      simp only [gets_cons, gets_nil, frees_cons, frees_nil, Event.gets, Event.frees, Bucket.blocks,
        List.count_cons, List.count_nil, beq_iff_eq, Bool.false_eq_true, if_false]
      omega

/-- And a block that was not obtained before was obtained once. -/
theorem written_once {log : List Event} (b : Bucket) (a : DynArrayT) {answer : Option (Nat × Block)}
    (hnew : ∀ block junk, answer = some (block, junk) → gets block log = 0) {k : Nat}
    (hk : gets k log ≤ 1) : gets k (log ++ (b.written a answer).2) ≤ 1 := by
  rw [gets_append]
  rcases answer with _ | ⟨block, junk⟩
  · exact hk
  · have hzero := hnew block junk rfl
    by_cases hcap : a.capacity = b.arr.capacity
    · rw [Bucket.written, if_pos hcap]
      exact hk
    · rw [Bucket.written, if_neg hcap]
      simp only [gets_cons, gets_nil, Event.gets, beq_iff_eq, Bool.false_eq_true, if_false]
      split
      · rename_i heq
        subst heq
        omega
      · omega

theorem written_arr (b : Bucket) (a : DynArrayT) (answer : Option (Nat × Block)) :
    (b.written a answer).1.arr = a := by
  rcases answer with _ | ⟨block, junk⟩
  · rfl
  · rw [Bucket.written]
    split
    · rfl
    · rfl

/-- **One call** keeps the books: what its bucket held of blocks and of elements is exchanged for what it
    holds now, and both exchanges are balanced. -/
theorem live_step {d : Bool} {s t : Life} {c : Call} (h : Live d s) (hc : Allowed s c)
    (hstep : s.step c = some t) : Live d t := by
  obtain ⟨b, hb, hstep⟩ := Option.bind_eq_some_iff.mp hstep
  obtain ⟨r, hrun, rfl⟩ := Option.map_eq_some_iff.mp hstep
  obtain ⟨hrange, hnew, hroom⟩ := hc b hb
  obtain ⟨hwf, hroomy, hdes⟩ := h.sound b (List.mem_of_getElem? hb)
  obtain ⟨r', hrun', hled⟩ := run_ledger hwf hroomy c.op (c.answer.map Prod.snd) hrange
  obtain rfl : r = r' := Option.some.inj (hrun.symm.trans hrun')
  have hled := hled (hroom r hrun)
  have harr := written_arr b r.arr c.answer
  refine ⟨?_, fun b' hb' => ?_, fun k => written_once b r.arr hnew (h.once k), fun k => ?_, fun hd => ?_⟩
  · exact List.length_set.trans h.length
  · rcases List.mem_or_eq_of_mem_set hb' with hb' | rfl
    · exact h.sound b' hb'
    · rw [harr]
      exact ⟨hled.wf, hroom r hrun, hled.destructor.trans hdes⟩
  · have hone := h.balance k
    have hset := (flatMap_set_perm Bucket.blocks (b.written r.arr c.answer).1 hb).count_eq k
    have hbal := written_balance b r.arr c.answer k
    simp only [DynHashMap.blocks, List.count_cons, List.count_append, gets_append,
      frees_append] at hone hset ⊢
    omega
  · have hset := flatMap_set_perm Bucket.elements (b.written r.arr c.answer).1 hb
    have hone : (b.written r.arr c.answer).1.elements.Perm
        (b.elements ++ Step.inserted ⟨c.op, c.answer.map Prod.snd, b.arr, r⟩) := by
      rw [Bucket.elements, harr]
      exact hled.conserved (hdes.trans hd)
    refine (List.perm_append_right_iff b.elements).mp (hset.trans ?_)
    refine ((h.ledger hd).append hone).trans ?_
    rw [List.append_assoc]
    exact List.perm_append_comm.append_left s.entered

/-- **Every state of every life** is live. -/
theorem reachable_live {d : Bool} {s : Life} (h : ReachableBy (lifeOf d) Allowed s) : Live d s :=
  h.invariant (fun _ h0 => h0) fun _ _ _ hlive hc hstep => live_step hlive hc hstep

/-! ## The end -/

/-- The loop releases the blocks of the buckets it comes by, and destroys their arrays.  Induction on
    the buckets left. -/
theorem destroyFrom_eq (m : DynHashMap) : ∀ (n i : Nat) (log : List Event), i + n = m.buckets.length →
    destroyFrom m n i log = some ((m.buckets.drop i).map fun b => dynArrayDestroy b.arr,
      log ++ ((m.buckets.drop i).flatMap Bucket.blocks).map Event.free) := by
  intro n
  induction n with
  | zero =>
    intro i log hlen
    rw [destroyFrom, List.drop_eq_nil_of_le (by omega)]
    simp
  | succ n ih =>
    intro i log hlen
    have hi : i < m.buckets.length := by omega
    rw [destroyFrom, List.getElem?_eq_getElem hi, Option.bind_some, ih (i + 1) _ (by omega),
      List.drop_eq_getElem_cons hi, Option.map_some, List.map_cons, List.flatMap_cons, List.map_append,
      ← List.append_assoc]
    rfl

/-- **The life of a map.**  Whatever calls the buckets of a live map saw: `dyn_hash_map_destroy` ends
    within the table; at its end every block obtained since the beginning, for the map, the table, a
    bucket or a larger buffer, has been released exactly once and no other; and, when there is a
    destructor, it has been run exactly once on every element that entered. -/
theorem life_of_map {d : Bool} {s : Life} (h : ReachableBy (lifeOf d) Allowed s) :
    ∃ arrs log, dynHashMapDestroy s.map s.log = some (arrs, log) ∧ ReleasedOnce log ∧
      (d = true → (arrs.flatMap DynArrayT.destructed).Perm s.entered) := by
  have hlive := reachable_live h
  have hloop := destroyFrom_eq s.map s.map.capacity 0 s.log (by rw [Nat.zero_add, hlive.length])
  refine ⟨_, _, by rw [dynHashMapDestroy, hloop, Option.map_some], fun k => ?_, fun hd => ?_⟩
  · have hbal := hlive.balance k
    have honce := hlive.once k
    simp only [DynHashMap.blocks, List.count_cons, beq_iff_eq] at hbal
    simp only [List.drop_zero, gets_append, frees_append, gets_map_free, frees_map_free, gets_cons,
      gets_nil, frees_cons, frees_nil, Event.gets, Event.frees, beq_iff_eq, Bool.false_eq_true, if_false]
    omega
  · refine List.Perm.trans (List.Perm.of_eq ?_) (hlive.ledger hd)
    rw [List.drop_zero, List.flatMap_map]
    refine List.flatMap_congr fun b hb => ?_
    obtain ⟨hwf, hroomy, hdes⟩ := hlive.sound b hb
    exact destroy_destructed hwf hroomy (hdes.trans hd)

/-- A map of one bucket, whose blocks are 0 to 3. -/
def oneBucket : Life where
  map := { addr := 0, capacity := 1, size := 0, dataTypeSize := 1, table := 1,
           buckets := [⟨2, 3, freshArray 16 1 true fun _ => 0⟩], destructor := true }
  log := [.malloc 0 40, .malloc 1 8, .malloc 2 48, .malloc 3 16]
  entered := []

theorem oneBucket_live : Live true oneBucket where
  length := rfl
  sound := by
    intro b hb
    obtain rfl := List.mem_singleton.mp hb
    exact ⟨⟨Nat.zero_le _, ⟨4, by decide, by decide, rfl⟩, Nat.one_pos, rfl⟩, Nat.le_refl _, rfl⟩
  once := by
    intro b
    simp only [oneBucket, gets_cons, gets_nil, Event.gets, beq_iff_eq]
    split_ifs <;> omega
  balance := by
    intro b
    simp only [oneBucket, gets_cons, gets_nil, frees_cons, frees_nil, Event.gets, Event.frees,
      DynHashMap.blocks, Bucket.blocks, List.flatMap_cons, List.flatMap_nil, List.append_nil,
      List.count_cons, List.count_nil, beq_iff_eq, Bool.false_eq_true, if_false]
    omega
  ledger := fun _ => .refl _

/-- An element is pushed into the bucket. -/
theorem life_of_map_one :
    ∃ (s : Life) (arrs : List DynArrayT) (log : List Event), s.entered = [[7]] ∧
      dynHashMapDestroy s.map s.log = some (arrs, log) ∧ ReleasedOnce log ∧
      (arrs.flatMap DynArrayT.destructed).Perm [[7]] := by
  have hpush : ∃ t, oneBucket.step ⟨0, .pushBack (some (.outside fun _ => 7)), none⟩ = some t ∧
      t.entered = [[7]] := ⟨_, rfl, rfl⟩
  have hallowed : Allowed oneBucket ⟨0, .pushBack (some (.outside fun _ => 7)), none⟩ := by
    intro b hb
    cases hb
    refine ⟨?_, ?_, ?_⟩
    · intro o ho
      cases ho
      trivial
    · intro block junk hanswer
      cases hanswer
    · intro r hr
      cases hr
      exact Nat.le_refl _
  obtain ⟨t, hstep, hentered⟩ := hpush
  obtain ⟨arrs, log, hrun, honce, hall⟩ :=
    life_of_map (.next (.start oneBucket_live) hallowed hstep)
  exact ⟨t, arrs, log, hentered, hrun, honce, hentered ▸ hall rfl⟩

end Msvl.HashMap
