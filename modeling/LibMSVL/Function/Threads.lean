/-
  From `pthread_create` to `pthread_join`.

  The k-th thread for which a node is built has number k (`birth`).  Its node changes: each conversion
  builds another object for it.  What is to be known of the threads is read off the log.

  1. `Change` — the four things a step can do to the nodes there are: one is made, one is replaced by
     another for the same thread, one is deleted, or they stay.
  2. `Threads` — every thread made is joined once or has a node, never both and never two nodes.
  3. `Locks` — the mutex and the cond of a thread are those made with its first node; they go from
     object to object, so that they are destroyed when the thread is joined.  An object that has been
     replaced holds neither; nobody deletes it.
-/
import LibMSVL.Function.Newcomer
import LibMSVL.Function.Manager

namespace Msvl.Function

open Msvl.Run

/-! ## The four changes -/

/-- The thread for which the step makes a node. -/
def Label.created : Label → State → Option Tid
  | .newRoot _, s => some s.mainThread
  | .newThread _ id, _ => some id
  | _, _ => none

/-- The node that the step deletes. -/
def Label.deleted : Label → Option Ptr
  | .destroy _ _ n | .destroyRoot n | .drop n => some n
  | _ => none

def Label.converts : Label → Bool
  | .replace _ _ _ => true
  | _ => false

/-- What the step `l` from `s` to `t` does to the nodes there are. -/
inductive Change (s t : State) (l : Label) : Prop
  | made {id : Tid} {k : NodeType} : l.created s = some id → l.deleted = none →
      l.converts = false → Spawned s t id k →
      (k = .leaf ∧ t.threadRoot = s.threadRoot ∨
        s.threadRoot = none ∧ t.threadRoot = some s.next) → Change s t l
  | replaced {owner n : Ptr} {i : Nat} : l.created s = none → l.deleted = none →
      l.converts = true → Slot s owner i n → s.Open n → Replaced s t owner n i → Change s t l
  | deleted {n : Ptr} : l.created s = none → l.deleted = some n →
      l.converts = false → Unlinked s t n → Change s t l
  | same : l.created s = none → l.deleted = none →
      l.converts = false → SameMap s t → Change s t l

theorem Guard.change {b : Nat} {l : Label} {s : State} (hg : Guard b l s) (h : Inv s) :
    Change s (l.apply s) l := by
  cases l with
  | edit n e => exact .same rfl rfl rfl (sameMap_edit s n e)
  | newRoot type =>
    refine .made rfl rfl rfl (spawned_newRoot type hg.2.2.1) (Or.inr ⟨hg.2.1, ?_⟩)
    exact newRoot_global s type fun _ _ _ => rfl
  | newThread F id =>
    refine .made rfl rfl rfl (spawned_newThread F hg.2.1.2.2) (Or.inl ⟨rfl, ?_⟩)
    exact newThread_global s F id fun _ _ _ => rfl
  | replace owner i n => exact .replaced rfl rfl rfl hg.1 hg.2.1 (replaced h hg.1)
  | destroy owner i n => exact .deleted rfl rfl rfl (unlinked_destroy h hg.1 hg.2.1)
  | destroyRoot r => exact .deleted rfl rfl rfl (unlinked_destroyRoot h hg.1 hg.2.1)
  | moveToKeepChilds n => exact .same rfl rfl rfl (sameObjects_moveToKeepChilds s n).toSameMap
  | moveToFather n F => exact .same rfl rfl rfl (sameObjects_moveToFather s n F).toSameMap
  | attach c F => exact .same rfl rfl rfl (sameObjects_attach s c F).toSameMap
  | drop c => exact .deleted rfl rfl rfl (unlinked_drop h hg.1 hg.2.1)
  | _ =>
    refine .same rfl rfl rfl ?_
    constructor <;> intros <;> rfl

/-! ## Threads -/

/-- The threads for which nodes have been made, with their numbers, the last one first. -/
def created (log : Log) : List (Nat × Tid) :=
  log.filterMap fun x => (x.1.created x.2).map fun id => (x.2.births + 1, id)

/-- The threads that have been joined, with their numbers. -/
def joined (log : Log) : List (Nat × Tid) :=
  log.filterMap fun x => x.1.deleted.map fun n => (x.2.birth n, x.2.thread n)

/-- `n` is the node of thread number `p.1`, with the id `p.2`. -/
def State.Stands (s : State) (p : Nat × Tid) (n : Ptr) : Prop :=
  s.Reg n ∧ s.birth n = p.1 ∧ s.thread n = p.2

theorem created_cons (l : Label) (s : State) (log : Log) : created ((l, s) :: log) =
    ((l.created s).map fun id => (s.births + 1, id)).toList ++ created log := by
  unfold created
  rw [List.filterMap_cons]
  cases l.created s <;> rfl

theorem joined_cons (l : Label) (s : State) (log : Log) : joined ((l, s) :: log) =
    (l.deleted.map fun n => (s.birth n, s.thread n)).toList ++ joined log := by
  unfold joined
  rw [List.filterMap_cons]
  cases l.deleted <;> rfl

/-- **The threads of a run**, in the log and in the state. -/
structure Threads (log : Log) (s : State) : Prop where
  /-- they are numbered from 1 on -/
  numbers : (created log).map Prod.fst = ((List.range s.births).map (· + 1)).reverse
  /-- joined once -/
  once : ((joined log).map Prod.fst).Nodup
  /-- a thread that was made is joined, or has a node; nothing else is joined or has one -/
  account : ∀ p, p ∈ created log ↔ p ∈ joined log ∨ ∃ n, s.Stands p n
  /-- a thread that has been joined has no node -/
  gone : ∀ p ∈ joined log, ∀ n, s.Reg n → s.birth n ≠ p.1
  /-- no thread has two nodes -/
  single : ∀ x y, s.Reg x → s.Reg y → s.birth x = s.birth y → x = y

section

variable {log : Log} {s t : State} {l : Label} (hT : Threads log s) (h : Inv s)

include hT h

theorem Threads.made {id : Tid} {k : NodeType} (hc : l.created s = some id)
    (hd : l.deleted = none) (hb : Spawned s t id k) : Threads ((l, s) :: log) t := by
  have hcreated : created ((l, s) :: log) = (s.births + 1, id) :: created log := by
    rw [created_cons, hc]
    rfl
  have hjoined : joined ((l, s) :: log) = joined log := by
    rw [joined_cons, hd]
    rfl
  have hold : ∀ n, s.Reg n → t.birth n = s.birth n ∧ t.thread n = s.thread n ∧
      s.birth n ≤ s.births := by
    intro n hn
    have hne := Nat.ne_of_lt (h.alloc hn)
    rw [hb.birth, hb.thread, if_neg hne, if_neg hne]
    exact ⟨rfl, rfl, (h.birth n (h.alloc hn)).2⟩
  have hnew : t.birth s.next = s.births + 1 ∧ t.thread s.next = id := by
    rw [hb.birth, hb.thread, if_pos rfl, if_pos rfl]
    exact ⟨rfl, rfl⟩
  have hstands : ∀ p, (∃ n, t.Stands p n) ↔ p = (s.births + 1, id) ∨ ∃ n, s.Stands p n := by
    rintro ⟨k, i⟩
    constructor
    · rintro ⟨n, hn, hk, hi⟩
      rcases (hb.reg n).mp hn with rfl | hn
      · rw [hnew.1] at hk
        rw [hnew.2] at hi
        exact Or.inl (by rw [hk, hi])
      · exact Or.inr ⟨n, hn, (hold n hn).1.symm.trans hk, (hold n hn).2.1.symm.trans hi⟩
    · rintro (heq | ⟨n, hn, hk, hi⟩)
      · cases heq
        exact ⟨s.next, (hb.reg _).mpr (Or.inl rfl), hnew.1, hnew.2⟩
      · exact ⟨n, (hb.reg n).mpr (Or.inr hn), (hold n hn).1.trans hk, (hold n hn).2.1.trans hi⟩
  refine ⟨?_, ?_, ?_, ?_, ?_⟩
  · rw [hcreated, hb.births, List.range_succ, List.map_append, List.reverse_append, List.map_cons,
      hT.numbers]
    rfl
  · rw [hjoined]
    exact hT.once
  · intro p
    rw [hcreated, hjoined, hstands, List.mem_cons, hT.account]
    tauto
  · rw [hjoined]
    intro p hp n hn
    have hle : p.1 ≤ s.births := by
      have hmem : p.1 ∈ (created log).map Prod.fst :=
        List.mem_map_of_mem ((hT.account p).mpr (Or.inl hp))
      rw [hT.numbers] at hmem
      simp only [List.mem_reverse, List.mem_map, List.mem_range] at hmem
      omega
    rcases (hb.reg n).mp hn with rfl | hn
    · rw [hnew.1]
      omega
    · rw [(hold n hn).1]
      exact hT.gone p hp n hn
  · intro x y hx hy heq
    rcases (hb.reg x).mp hx with rfl | hx <;> rcases (hb.reg y).mp hy with rfl | hy
    · rfl
    · rw [hnew.1, (hold y hy).1] at heq
      have := (hold y hy).2.2
      omega
    · rw [hnew.1, (hold x hx).1] at heq
      have := (hold x hx).2.2
      omega
    · rw [(hold x hx).1, (hold y hy).1] at heq
      exact hT.single x y hx hy heq

theorem Threads.replaced {owner n : Ptr} {i : Nat} (hc : l.created s = none)
    (hd : l.deleted = none) (hs : Slot s owner i n) (hr : Replaced s t owner n i) :
    Threads ((l, s) :: log) t := by
  have hcreated : created ((l, s) :: log) = created log := by
    rw [created_cons, hc]
    rfl
  have hjoined : joined ((l, s) :: log) = joined log := by
    rw [joined_cons, hd]
    rfl
  have hold : ∀ x, s.Reg x → t.birth x = s.birth x ∧ t.thread x = s.thread x := by
    intro x hx
    have hne := Nat.ne_of_lt (h.alloc hx)
    rw [hr.birth, hr.thread, if_neg hne, if_neg hne]
    exact ⟨rfl, rfl⟩
  have hnew : t.birth s.next = s.birth n ∧ t.thread s.next = s.thread n := by
    rw [hr.birth, hr.thread, if_pos rfl, if_pos rfl]
    exact ⟨rfl, rfl⟩
  -- the new object stands where the old one stood
  have hback : ∀ x, t.Reg x → ∃ y, s.Reg y ∧ t.birth x = s.birth y ∧ t.thread x = s.thread y ∧
      (x = s.next ∧ y = n ∨ x = y ∧ y ≠ n) := by
    intro x hx
    rcases (hr.reg x).mp hx with rfl | ⟨hx, hne⟩
    · exact ⟨n, hs.reg, hnew.1, hnew.2, Or.inl ⟨rfl, rfl⟩⟩
    · exact ⟨x, hx, (hold x hx).1, (hold x hx).2, Or.inr ⟨rfl, hne⟩⟩
  have hstands : ∀ p, (∃ x, t.Stands p x) ↔ ∃ x, s.Stands p x := by
    intro p
    constructor
    · rintro ⟨x, hx, hk, hi⟩
      obtain ⟨y, hy, hbirth, hthread, -⟩ := hback x hx
      exact ⟨y, hy, hbirth.symm.trans hk, hthread.symm.trans hi⟩
    · rintro ⟨x, hx, hk, hi⟩
      by_cases hxn : x = n
      · subst hxn
        exact ⟨s.next, (hr.reg _).mpr (Or.inl rfl), hnew.1.trans hk, hnew.2.trans hi⟩
      · exact ⟨x, (hr.reg x).mpr (Or.inr ⟨hx, hxn⟩), (hold x hx).1.trans hk,
          (hold x hx).2.trans hi⟩
  refine ⟨?_, ?_, ?_, ?_, ?_⟩
  · rw [hcreated, hr.births]
    exact hT.numbers
  · rw [hjoined]
    exact hT.once
  · intro p
    rw [hcreated, hjoined, hstands]
    exact hT.account p
  · rw [hjoined]
    intro p hp x hx
    obtain ⟨y, hy, hbirth, -⟩ := hback x hx
    rw [hbirth]
    exact hT.gone p hp y hy
  · intro x y hx hy heq
    obtain ⟨x', hx', hbx, -, hcx⟩ := hback x hx
    obtain ⟨y', hy', hby, -, hcy⟩ := hback y hy
    have hxy : x' = y' := hT.single x' y' hx' hy' (hbx.symm.trans (heq.trans hby))
    subst hxy
    rcases hcx with ⟨rfl, hxn⟩ | ⟨rfl, hxn⟩ <;> rcases hcy with ⟨rfl, hyn⟩ | ⟨rfl, hyn⟩
    · rfl
    · exact absurd hxn hyn
    · exact absurd hyn hxn
    · rfl

theorem Threads.deleted {n : Ptr} (hc : l.created s = none) (hd : l.deleted = some n)
    (hu : Unlinked s t n) : Threads ((l, s) :: log) t := by
  have hcreated : created ((l, s) :: log) = created log := by
    rw [created_cons, hc]
    rfl
  have hjoined : joined ((l, s) :: log) = (s.birth n, s.thread n) :: joined log := by
    rw [joined_cons, hd]
    rfl
  have hreg := hu.reg_iff h
  have hthread : ∀ x, x ≠ n → t.thread x = s.thread x := fun x hx => by rw [hu.thread, if_neg hx]
  refine ⟨?_, ?_, ?_, ?_, ?_⟩
  · rw [hcreated, hu.births]
    exact hT.numbers
  · rw [hjoined, List.map_cons, List.nodup_cons]
    refine ⟨?_, hT.once⟩
    intro hmem
    obtain ⟨p, hp, heq⟩ := List.mem_map.mp hmem
    exact hT.gone p hp n hu.reg heq.symm
  · rintro ⟨k, i⟩
    rw [hcreated, hjoined, List.mem_cons, hT.account]
    constructor
    · rintro (hj | ⟨x, hx, hk, hi⟩)
      · exact Or.inl (Or.inr hj)
      · by_cases hxn : x = n
        · subst hxn
          exact Or.inl (Or.inl (by rw [hk, hi]))
        · exact Or.inr ⟨x, (hreg x).mpr ⟨hx, hxn⟩, (hu.birth x).trans hk, (hthread x hxn).trans hi⟩
    · rintro ((heq | hj) | ⟨x, hx, hk, hi⟩)
      · cases heq
        exact Or.inr ⟨n, hu.reg, rfl, rfl⟩
      · exact Or.inl hj
      · obtain ⟨hx, hxn⟩ := (hreg x).mp hx
        exact Or.inr ⟨x, hx, (hu.birth x).symm.trans hk, (hthread x hxn).symm.trans hi⟩
  · rw [hjoined]
    intro p hp x hx
    obtain ⟨hx, hxn⟩ := (hreg x).mp hx
    rw [hu.birth]
    rcases List.mem_cons.mp hp with rfl | hp
    · exact fun heq => hxn (hT.single x n hx hu.reg heq)
    · exact hT.gone p hp x hx
  · intro x y hx hy
    rw [hu.birth, hu.birth]
    exact hT.single x y ((hreg x).mp hx).1 ((hreg y).mp hy).1

omit h in
theorem Threads.same (hc : l.created s = none) (hd : l.deleted = none) (hs : SameMap s t) :
    Threads ((l, s) :: log) t := by
  have hcreated : created ((l, s) :: log) = created log := by
    rw [created_cons, hc]
    rfl
  have hjoined : joined ((l, s) :: log) = joined log := by
    rw [joined_cons, hd]
    rfl
  refine ⟨?_, ?_, ?_, ?_, ?_⟩
  · rw [hcreated, hs.births]
    exact hT.numbers
  · rw [hjoined]
    exact hT.once
  · intro p
    rw [hcreated, hjoined, hT.account]
    simp only [State.Stands, hs.reg, hs.birth, hs.thread]
  · rw [hjoined]
    intro p hp n hn
    rw [hs.birth]
    exact hT.gone p hp n ((hs.reg n).mp hn)
  · intro x y hx hy
    rw [hs.birth, hs.birth]
    exact hT.single x y ((hs.reg x).mp hx) ((hs.reg y).mp hy)

theorem Threads.step {b : Nat} (hg : Guard b l s) : Threads ((l, s) :: log) (l.apply s) := by
  cases hg.change h with
  | made hc hd _ hb => exact hT.made h hc hd hb
  | replaced hc hd _ hs _ hr => exact hT.replaced h hc hd hs hr
  | deleted hc hd _ hu => exact hT.deleted h hc hd hu
  | same hc hd _ hs => exact hT.same hc hd hs

end

/-! ## Mutexes and conds -/

/-- The locks of thread number `k` are at `2 * (k - 1)` and the address after that. -/
structure Locks (s : State) : Prop where
  next : s.nextLock = 2 * s.births
  mutex : ∀ n, s.Reg n → (s.heap n).mutex = some (2 * (s.birth n - 1))
  cond : ∀ n, s.Reg n → (s.heap n).cond = some (2 * (s.birth n - 1) + 1)
  given : ∀ n < s.next, ¬ s.Reg n → (s.heap n).mutex = none ∧ (s.heap n).cond = none

theorem Locks.step {b : Nat} {l : Label} {s : State} (hL : Locks s) (h : Inv s)
    (hg : Guard b l s) : Locks (l.apply s) := by
  generalize ht : l.apply s = t
  have hchange := hg.change h
  rw [ht] at hchange
  cases hchange with
  | made _ _ _ hb =>
    have hold : ∀ n < s.next, (t.heap n).mutex = (s.heap n).mutex ∧
        (t.heap n).cond = (s.heap n).cond ∧ t.birth n = s.birth n := by
      intro n hn
      rw [hb.mutex, hb.cond, hb.birth, if_neg (Nat.ne_of_lt hn), if_neg (Nat.ne_of_lt hn),
        if_neg (Nat.ne_of_lt hn)]
      exact ⟨rfl, rfl, rfl⟩
    refine ⟨?_, ?_, ?_, ?_⟩
    · rw [hb.nextLock, hb.births, hL.next]
      rfl
    · intro n hn
      rcases (hb.reg n).mp hn with rfl | hn
      · rw [hb.mutex, hb.birth, if_pos rfl, if_pos rfl, hL.next]
        rfl
      · obtain ⟨hm, -, hk⟩ := hold n (h.alloc hn)
        rw [hm, hk]
        exact hL.mutex n hn
    · intro n hn
      rcases (hb.reg n).mp hn with rfl | hn
      · rw [hb.cond, hb.birth, if_pos rfl, if_pos rfl, hL.next]
        rfl
      · obtain ⟨-, hc, hk⟩ := hold n (h.alloc hn)
        rw [hc, hk]
        exact hL.cond n hn
    · intro n hn hreg
      rw [hb.reg, not_or] at hreg
      rw [hb.next] at hn
      have hlt : n < s.next := Nat.lt_of_le_of_ne (Nat.le_of_lt_succ hn) hreg.1
      obtain ⟨hm, hc, -⟩ := hold n hlt
      rw [hm, hc]
      exact hL.given n hlt hreg.2
  | @replaced owner n i _ _ _ hs _ hr =>
    have hne : n ≠ s.next := Nat.ne_of_lt (h.alloc hs.reg)
    have hold : ∀ x, s.Reg x → x ≠ n → (t.heap x).mutex = (s.heap x).mutex ∧
        (t.heap x).cond = (s.heap x).cond ∧ t.birth x = s.birth x := by
      intro x hx hxn
      have hxs := Nat.ne_of_lt (h.alloc hx)
      rw [hr.mutex, hr.cond, hr.birth, if_neg hxn, if_neg hxn, if_neg hxs, if_neg hxs, if_neg hxs]
      exact ⟨rfl, rfl, rfl⟩
    refine ⟨?_, ?_, ?_, ?_⟩
    · rw [hr.nextLock, hr.births]
      exact hL.next
    · intro x hx
      rcases (hr.reg x).mp hx with rfl | ⟨hx, hxn⟩
      · rw [hr.mutex, hr.birth, if_neg hne.symm, if_pos rfl, if_pos rfl]
        exact hL.mutex n hs.reg
      · obtain ⟨hm, -, hk⟩ := hold x hx hxn
        rw [hm, hk]
        exact hL.mutex x hx
    · intro x hx
      rcases (hr.reg x).mp hx with rfl | ⟨hx, hxn⟩
      · rw [hr.cond, hr.birth, if_neg hne.symm, if_pos rfl, if_pos rfl]
        exact hL.cond n hs.reg
      · obtain ⟨-, hc, hk⟩ := hold x hx hxn
        rw [hc, hk]
        exact hL.cond x hx
    · intro x hx hreg
      rw [hr.mutex, hr.cond]
      by_cases hxn : x = n
      · rw [if_pos hxn, if_pos hxn]
        exact ⟨rfl, rfl⟩
      · have hxs : x ≠ s.next := fun hx => hreg ((hr.reg x).mpr (Or.inl hx))
        rw [hr.next] at hx
        rw [if_neg hxn, if_neg hxn, if_neg hxs, if_neg hxs]
        have hlt : x < s.next := Nat.lt_of_le_of_ne (Nat.le_of_lt_succ hx) hxs
        exact hL.given x hlt fun hr' => hreg ((hr.reg x).mpr (Or.inr ⟨hr', hxn⟩))
  | @deleted n _ _ _ hu =>
    have hreg := hu.reg_iff h
    refine ⟨?_, ?_, ?_, ?_⟩
    · rw [hu.nextLock, hu.births]
      exact hL.next
    · intro x hx
      obtain ⟨hx, hxn⟩ := (hreg x).mp hx
      rw [hu.mutex, hu.birth, if_neg hxn]
      exact hL.mutex x hx
    · intro x hx
      obtain ⟨hx, hxn⟩ := (hreg x).mp hx
      rw [hu.cond, hu.birth, if_neg hxn]
      exact hL.cond x hx
    · intro x hx hno
      rw [hu.mutex, hu.cond]
      by_cases hxn : x = n
      · rw [if_pos hxn, if_pos hxn]
        exact ⟨rfl, rfl⟩
      · rw [hu.next] at hx
        rw [if_neg hxn, if_neg hxn]
        exact hL.given x hx fun hr => hno ((hreg x).mpr ⟨hr, hxn⟩)
  | same _ _ _ hs =>
    refine ⟨?_, ?_, ?_, ?_⟩
    · rw [hs.nextLock, hs.births]
      exact hL.next
    · intro n hn
      rw [hs.mutex, hs.birth]
      exact hL.mutex n ((hs.reg n).mp hn)
    · intro n hn
      rw [hs.cond, hs.birth]
      exact hL.cond n ((hs.reg n).mp hn)
    · intro n hn hreg
      rw [hs.next] at hn
      rw [hs.mutex, hs.cond]
      exact hL.given n hn fun hr => hreg ((hs.reg n).mpr hr)

/-! ## Objects -/

/-- How many objects have been replaced.  The `delete` of `getNewNode` is commented out. -/
def conversions (log : Log) : Nat := log.countP fun x => x.1.converts

/-- One object for each thread, and one for each conversion. -/
theorem objects_step {b : Nat} {l : Label} {s : State} {log : Log} (h : Inv s) (hg : Guard b l s)
    (hn : s.births + conversions log = s.next) :
    (l.apply s).births + conversions ((l, s) :: log) = (l.apply s).next := by
  have hcount : conversions ((l, s) :: log) = conversions log + if l.converts then 1 else 0 :=
    List.countP_cons
  cases hg.change h with
  | made _ _ hc hb =>
    rw [hb.next, hb.births, hcount, if_neg (by simp [hc])]
    omega
  | replaced _ _ hc _ _ hr =>
    rw [hr.next, hr.births, hcount, if_pos hc]
    omega
  | deleted _ _ hc hu =>
    rw [hu.next, hu.births, hcount, if_neg (by simp [hc])]
    exact hn
  | same _ _ hc hs =>
    rw [hs.next, hs.births, hcount, if_neg (by simp [hc])]
    exact hn

/-! ## Runs -/

/-- What is kept of the threads and their objects. -/
structure Kin (log : Log) (s : State) : Prop where
  inv : Inv s
  threads : Threads log s
  locks : Locks s
  objects : s.births + conversions log = s.next

theorem Kin.step {b : Nat} {l : Label} {s : State} {log : Log} (hk : Kin log s)
    (hg : Guard b l s) : Kin ((l, s) :: log) (l.apply s) :=
  ⟨hg.inv hk.inv, hk.threads.step hk.inv hg, hk.locks.step hk.inv hg,
    objects_step hk.inv hg hk.objects⟩

theorem Kin.births {log : Log} {s : State} (hk : Kin log s) : s.births = (created log).length := by
  have hlen := congrArg List.length hk.threads.numbers
  rwa [List.length_map, List.length_reverse, List.length_map, List.length_range, eq_comm] at hlen

theorem kin_of_trace {mainThread : Tid} {env : Env} {log : Log} {s : State}
    (h : Trace Label.apply (Guard 0) (start mainThread env) log s) : Kin log s := by
  refine h.keeps_log (I := Kin) ?_ ?_
  · exact fun es l u hg hk => hk.step hg
  · refine ⟨inv_start mainThread env, ⟨rfl, List.nodup_nil, ?_, ?_, ?_⟩, ⟨rfl, ?_, ?_, ?_⟩, rfl⟩
    · rintro p
      refine iff_of_false List.not_mem_nil ?_
      rintro (hp | ⟨n, hn, -⟩)
      · exact List.not_mem_nil hp
      · cases hn
    · exact fun p hp => absurd hp List.not_mem_nil
    · intro x y hx
      cases hx
    · intro n hn
      cases hn
    · intro n hn
      cases hn
    · exact fun n hn => absurd hn (Nat.not_lt_zero n)

/-- **Every thread is joined at most once.**  At any moment of a run the threads made so far are
    numbered one after the other; each of them has been joined, once, or has a node, one, under its
    own id. -/
theorem run_threads (f : Nat) (mainThread : Tid) (env : Env) (input : List Action) :
    Throughout Threads (run f mainThread env input).2 :=
  (run_trace f mainThread env input).1.throughout fun _ _ h => (kin_of_trace h).threads

/-- **The locks of a thread stay with it.**  At any moment of a run the node of thread number `k`
    holds the mutex and the cond made for it, whatever it has been converted to, and no object without
    a thread holds any: they are destroyed when the thread is joined.  Of the objects one for each
    conversion is never deleted. -/
theorem run_locks (f : Nat) (mainThread : Tid) (env : Env) (input : List Action) :
    Throughout (fun log s => Locks s ∧ (created log).length + conversions log = s.next)
      (run f mainThread env input).2 := by
  refine (run_trace f mainThread env input).1.throughout ?_
  intro log s h
  have hkin := kin_of_trace h
  exact ⟨hkin.locks, by rw [← hkin.births, hkin.objects]⟩

end Msvl.Function
