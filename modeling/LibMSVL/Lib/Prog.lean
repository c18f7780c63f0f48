/-
  Programs whose every effect is a labelled step, and a logic for them.

  A `Prog` runs on a `World`: a state, an input that is read item by item, and a log.  The state is
  changed by `act l` only, which applies the step `l` and writes `(l, state before)` to the log;
  everything else reads.  A program may stop with an error, and keeps what it has done so far.

  1. `Trace step G s es t` — the log entries `es` lead from `s` to `t`, and the guard `G` holds
     of each of them.  The newest entry stands first.
  2. `Trace.keeps`, `Trace.rel` — what every guarded step keeps, a whole trace keeps; `Throughout`
     is what holds of the log so far and the state at every moment.
  3. `Spec` — from `s`, the program adds a guarded trace to the log, whatever it does; if it
     returns, `Q` holds of the value and the last state; if it stops, the error is in `E`.
  4. The rules: one for each way to build a program.  After `Spec.bind` the rest of the program may
     use that a trace leads to where it starts (`Reaches`), so that what the steps keep is known
     there without being part of `Q`.
  5. `Yields` — the program does return, with its own rules; `Eval` is one evaluation.
  6. `Writes A` — whatever the program does, it takes only steps whose labels are in `A`.
  7. `Triple` — pre- and postconditions on worlds, the log included.
-/
import Mathlib.Data.List.Basic

namespace Msvl.Run

/-! ## Programs -/

/-- State, input still to be read, log with the newest entry first. -/
structure World (σ ι τ : Type) where
  st : σ
  input : List τ
  log : List (ι × σ)

/-- A program over states `σ`, labels `ι`, inputs `τ` and errors `ε`. -/
def Prog (σ ι τ ε α : Type) : Type := World σ ι τ → Except ε α × World σ ι τ

variable {σ ι τ ε α β : Type}

namespace Prog

def pure (a : α) : Prog σ ι τ ε α := fun w => (.ok a, w)

def bind (m : Prog σ ι τ ε α) (f : α → Prog σ ι τ ε β) : Prog σ ι τ ε β := fun w =>
  match m w with
  | (.ok a, w') => f a w'
  | (.error e, w') => (.error e, w')

instance : Monad (Prog σ ι τ ε) where
  pure := pure
  bind := bind

/-- The state as it is. -/
def get : Prog σ ι τ ε σ := fun w => (.ok w.st, w)

def stop (e : ε) : Prog σ ι τ ε α := fun w => (.error e, w)

/-- The next item of the input; `e` when there is none. -/
def read (e : ε) : Prog σ ι τ ε τ := fun w =>
  match w.input with
  | [] => (.error e, w)
  | x :: l => (.ok x, { w with input := l })

/-- One labelled step. -/
def act (step : ι → σ → σ) (l : ι) : Prog σ ι τ ε Unit := fun w =>
  (.ok (), { w with st := step l w.st, log := (l, w.st) :: w.log })

theorem bind_assoc {γ : Type} (m : Prog σ ι τ ε α) (f : α → Prog σ ι τ ε β)
    (g : β → Prog σ ι τ ε γ) : m >>= f >>= g = m >>= fun a => f a >>= g := by
  funext w
  show bind (bind m f) g w = bind m (fun a => bind (f a) g) w
  unfold bind
  rcases m w with ⟨e | a, w'⟩
  · rfl
  · rfl

/-- The first part has returned. -/
theorem bind_ok {m : Prog σ ι τ ε α} {f : α → Prog σ ι τ ε β} {w w' : World σ ι τ} {a : α}
    (h : m w = (.ok a, w')) : (m >>= f) w = f a w' := by
  show bind m f w = _
  rw [bind, h]

/-- The first part has stopped. -/
theorem bind_error {m : Prog σ ι τ ε α} {f : α → Prog σ ι τ ε β} {w w' : World σ ι τ} {e : ε}
    (h : m w = (.error e, w')) : (m >>= f) w = (.error e, w') := by
  show bind m f w = _
  rw [bind, h]

end Prog

/-! ## Traces -/

variable (step : ι → σ → σ) (G : ι → σ → Prop)

/-- Guarded entries, one after the other. -/
inductive Trace : σ → List (ι × σ) → σ → Prop
  | nil (s : σ) : Trace s [] s
  | snoc {s t : σ} {es : List (ι × σ)} {l : ι} :
      Trace s es t → G l t → Trace s ((l, t) :: es) (step l t)

/-- Some trace leads from `s` to `t`. -/
def Reaches (s t : σ) : Prop := ∃ es, Trace step G s es t

variable {step G}

theorem Trace.append {s t u : σ} {es fs : List (ι × σ)} (h : Trace step G s es t)
    (h' : Trace step G t fs u) : Trace step G s (fs ++ es) u := by
  induction h' with
  | nil => exact h
  | snoc _ hg ih => exact ih.snoc hg

/-- A trace is one trace after another. -/
theorem Trace.split {s t : σ} {newer older : List (ι × σ)}
    (h : Trace step G s (newer ++ older) t) : ∃ u, Trace step G s older u ∧ Trace step G u newer t := by
  induction newer generalizing t with
  | nil => exact ⟨t, h, .nil t⟩
  | cons x newer ih =>
    cases h with
    | snoc h hg =>
      obtain ⟨u, hu, hut⟩ := ih h
      exact ⟨u, hu, hut.snoc hg⟩

/-- What stands before an entry leads to its state. -/
theorem Trace.before {s t u : σ} {l : ι} {newer older : List (ι × σ)}
    (h : Trace step G s (newer ++ (l, u) :: older) t) : Trace step G s older u := by
  obtain ⟨v, hv, -⟩ := h.split
  cases hv with
  | snoc hv _ => exact hv

theorem Trace.mono {G' : ι → σ → Prop} (hG : ∀ l s, G l s → G' l s) {s t : σ} {es : List (ι × σ)}
    (h : Trace step G s es t) : Trace step G' s es t := by
  induction h with
  | nil => exact .nil _
  | snoc _ hg ih => exact ih.snoc (hG _ _ hg)

/-- **Invariants.**  What holds at the start and is kept by every guarded step holds at the end and
    before every step. -/
theorem Trace.keeps {I : σ → Prop} (hI : ∀ l s, G l s → I s → I (step l s)) {s t : σ}
    {es : List (ι × σ)} (h : Trace step G s es t) (hs : I s) :
    I t ∧ ∀ l u, (l, u) ∈ es → I u ∧ G l u := by
  induction h with
  | nil => exact ⟨hs, by simp⟩
  | snoc _ hg ih =>
    obtain ⟨ht, hes⟩ := ih
    refine ⟨hI _ _ hg ht, ?_⟩
    intro l u hmem
    rcases List.mem_cons.mp hmem with heq | hmem
    · cases heq
      exact ⟨ht, hg⟩
    · exact hes l u hmem

/-- Invariants that need a condition on the steps of this very trace. -/
theorem Trace.keeps_of {I : σ → Prop} {C : ι → σ → Prop}
    (hI : ∀ l s, G l s → C l s → I s → I (step l s)) {s t : σ} {es : List (ι × σ)}
    (h : Trace step G s es t) (hs : I s) (hC : ∀ l u, (l, u) ∈ es → C l u) :
    I t ∧ ∀ l u, (l, u) ∈ es → I u ∧ G l u := by
  have hGC : Trace step (fun l u => G l u ∧ C l u) s es t := by
    clear hs hI
    induction h with
    | nil => exact .nil _
    | snoc _ hg ih =>
      refine (ih fun l u hm => hC l u (List.mem_cons_of_mem _ hm)).snoc ⟨hg, ?_⟩
      exact hC _ _ List.mem_cons_self
  obtain ⟨ht, hes⟩ := hGC.keeps (fun l s hg => hI l s hg.1 hg.2) hs
  exact ⟨ht, fun l u hm => ⟨(hes l u hm).1, (hes l u hm).2.1⟩⟩

/-- Invariants of the state together with the log so far. -/
theorem Trace.keeps_log {I : List (ι × σ) → σ → Prop}
    (hI : ∀ es l u, G l u → I es u → I ((l, u) :: es) (step l u)) {s t : σ} {es : List (ι × σ)}
    (h : Trace step G s es t) (hs : I [] s) : I es t := by
  induction h with
  | nil => exact hs
  | snoc _ hg ih => exact hI _ _ _ hg ih

/-- At every moment, at the end and before each step: of the log so far and the state. -/
def Throughout (P : List (ι × σ) → σ → Prop) (w : World σ ι τ) : Prop :=
  P w.log w.st ∧ ∀ newer l s older, w.log = newer ++ (l, s) :: older → P older s

theorem Trace.throughout {s : σ} {w : World σ ι τ} {P : List (ι × σ) → σ → Prop}
    (h : Trace step G s w.log w.st) (hP : ∀ es u, Trace step G s es u → P es u) :
    Throughout P w :=
  ⟨hP _ _ h, fun _ _ _ _ heq => hP _ _ (heq ▸ h).before⟩

/-- A reflexive and transitive relation that every guarded step obeys, under an invariant. -/
theorem Trace.rel {I : σ → Prop} {R : σ → σ → Prop} (hI : ∀ l s, G l s → I s → I (step l s))
    (hrefl : ∀ s, R s s) (htrans : ∀ s t u, R s t → R t u → R s u)
    (hR : ∀ l s, G l s → I s → R s (step l s)) {s t : σ} {es : List (ι × σ)}
    (h : Trace step G s es t) (hs : I s) : R s t := by
  induction h with
  | nil => exact hrefl _
  | snoc h' hg ih => exact htrans _ _ _ ih (hR _ _ hg (h'.keeps hI hs).1)

theorem Reaches.refl (s : σ) : Reaches step G s s := ⟨[], .nil s⟩

theorem Reaches.trans {s t u : σ} (h : Reaches step G s t) (h' : Reaches step G t u) :
    Reaches step G s u := by
  obtain ⟨es, he⟩ := h
  obtain ⟨fs, hf⟩ := h'
  exact ⟨_, he.append hf⟩

theorem Reaches.mono {G' : ι → σ → Prop} (hG : ∀ l s, G l s → G' l s) {s t : σ}
    (h : Reaches step G s t) : Reaches step G' s t := by
  obtain ⟨es, he⟩ := h
  exact ⟨es, he.mono hG⟩

/-! ## Specifications -/

variable (step G) (E : ε → Prop)

/-- What `m` does from `s`. -/
def Spec (m : Prog σ ι τ ε α) (s : σ) (Q : α → σ → Prop) : Prop :=
  ∀ w : World σ ι τ, w.st = s →
    (∃ es, (m w).2.log = es ++ w.log ∧ Trace step G s es (m w).2.st) ∧
    match (m w).1 with
    | .ok a => Q a (m w).2.st
    | .error e => E e

variable {step G E} {m : Prog σ ι τ ε α} {f : α → Prog σ ι τ ε β} {s : σ}
  {Q Q' : α → σ → Prop} {R : β → σ → Prop}

theorem Spec.pure {a : α} (h : Q a s) : Spec step G E (Pure.pure a : Prog σ ι τ ε α) s Q := by
  rintro w rfl
  exact ⟨⟨[], rfl, .nil _⟩, h⟩

theorem Spec.stop {e : ε} (h : E e) : Spec step G E (Prog.stop e : Prog σ ι τ ε α) s Q := by
  rintro w rfl
  exact ⟨⟨[], rfl, .nil _⟩, h⟩

theorem Spec.act {l : ι} {Q : Unit → σ → Prop} (hg : G l s) (h : Q () (step l s)) :
    Spec step G E (Prog.act step l : Prog σ ι τ ε Unit) s Q := by
  rintro w rfl
  exact ⟨⟨[(l, w.st)], rfl, (Trace.nil _).snoc hg⟩, h⟩

theorem Spec.bind (hm : Spec step G E m s Q)
    (hf : ∀ a t, Reaches step G s t → Q a t → Spec step G E (f a) t R) :
    Spec step G E (m >>= f) s R := by
  rintro w rfl
  obtain ⟨⟨es, hlog, htr⟩, hres⟩ := hm w rfl
  show (∃ fs, (Prog.bind m f w).2.log = fs ++ w.log ∧
      Trace step G w.st fs (Prog.bind m f w).2.st) ∧
    match (Prog.bind m f w).1 with
    | .ok b => R b (Prog.bind m f w).2.st
    | .error e => E e
  unfold Prog.bind
  rcases hmw : m w with ⟨r, w'⟩
  rw [hmw] at hlog htr hres
  cases r with
  | error e => exact ⟨⟨es, hlog, htr⟩, hres⟩
  | ok a =>
    obtain ⟨⟨fs, hlog', htr'⟩, hres'⟩ := hf a w'.st ⟨es, htr⟩ hres w' rfl
    exact ⟨⟨fs ++ es, by rw [hlog', hlog, List.append_assoc], htr.append htr'⟩, hres'⟩

/-- Reading the state. -/
theorem Spec.get {f : σ → Prog σ ι τ ε β} (h : Spec step G E (f s) s R) :
    Spec step G E (Prog.get >>= f) s R := by
  rintro w rfl
  exact h w rfl

/-- Reading the input: any item, or none. -/
theorem Spec.read {e : ε} {f : τ → Prog σ ι τ ε β} (he : E e)
    (h : ∀ x, Spec step G E (f x) s R) : Spec step G E (Prog.read e >>= f) s R := by
  rintro ⟨st, input, log⟩ rfl
  cases input with
  | nil => exact ⟨⟨[], rfl, .nil _⟩, he⟩
  | cons x l => exact h x ⟨st, l, log⟩ rfl

/-- A step, and the rest from where it leads. -/
theorem Spec.act_bind {l : ι} {f : Unit → Prog σ ι τ ε β} (hg : G l s)
    (h : Spec step G E (f ()) (step l s) R) : Spec step G E (Prog.act step l >>= f) s R := by
  refine Spec.bind (Q := fun _ t => t = step l s) (Spec.act hg rfl) ?_
  rintro a t - rfl
  exact h

theorem Spec.imp (hm : Spec step G E m s Q) (h : ∀ a t, Reaches step G s t → Q a t → Q' a t) :
    Spec step G E m s Q' := by
  rintro w rfl
  obtain ⟨htr, hres⟩ := hm w rfl
  refine ⟨htr, ?_⟩
  obtain ⟨es, -, htr⟩ := htr
  rcases hmw : (m w).1 with e | a
  · rw [hmw] at hres
    exact hres
  · rw [hmw] at hres
    exact h a _ ⟨es, htr⟩ hres

/-- A weaker guard, with what the stronger one tells kept in the postcondition. -/
theorem Spec.weaken {G' : ι → σ → Prop} (hG : ∀ l s, G l s → G' l s) (hm : Spec step G E m s Q) :
    Spec step G' E m s (fun a t => Q a t ∧ Reaches step G s t) := by
  rintro w rfl
  obtain ⟨⟨es, hlog, htr⟩, hres⟩ := hm w rfl
  refine ⟨⟨es, hlog, htr.mono hG⟩, ?_⟩
  rcases hmw : (m w).1 with e | a
  · rw [hmw] at hres
    exact hres
  · rw [hmw] at hres
    exact ⟨hres, es, htr⟩

/-- Two guards of the same steps. -/
theorem Spec.both {G' : ι → σ → Prop} {E' : ε → Prop} (hm : Spec step G E m s Q)
    (hm' : Spec step G' E' m s Q') : Spec step (fun l s => G l s ∧ G' l s) E m s Q := by
  rintro w rfl
  obtain ⟨⟨es, hlog, htr⟩, hres⟩ := hm w rfl
  obtain ⟨⟨fs, hlog', htr'⟩, -⟩ := hm' w rfl
  obtain rfl := List.append_cancel_right (hlog.symm.trans hlog')
  have hand : ∀ {t u : σ}, Trace step G t es u → Trace step G' t es u →
      Trace step (fun l s => G l s ∧ G' l s) t es u := by
    intro t u h h'
    clear hlog hlog' htr htr'
    induction h with
    | nil => exact .nil _
    | snoc _ hg ih =>
      cases h' with
      | snoc h' hg' => exact (ih h').snoc ⟨hg, hg'⟩
  exact ⟨⟨es, hlog, hand htr htr'⟩, hres⟩

/-- What a run from the empty log leaves: a guarded trace. -/
theorem Spec.run (hm : Spec step G E m s Q) (input : List τ) :
    Trace step G s (m ⟨s, input, []⟩).2.log (m ⟨s, input, []⟩).2.st ∧
    ∀ e, (m ⟨s, input, []⟩).1 = .error e → E e := by
  obtain ⟨⟨es, hlog, htr⟩, hres⟩ := hm ⟨s, input, []⟩ rfl
  rw [List.append_nil] at hlog
  refine ⟨hlog ▸ htr, ?_⟩
  intro e he
  rw [he] at hres
  exact hres

/-! ## Evaluation -/

/-- From `s`, without reading, `m` returns `a` in `t`, and adds `es` to the log. -/
def Eval (m : Prog σ ι τ ε α) (s : σ) (a : α) (es : List (ι × σ)) (t : σ) : Prop :=
  ∀ input log, m ⟨s, input, log⟩ = (.ok a, ⟨t, input, es ++ log⟩)

/-- `m` returns from `s`, and `Q` holds of the value and the last state. -/
def Yields (m : Prog σ ι τ ε α) (s : σ) (Q : α → σ → Prop) : Prop :=
  ∃ a es t, Eval m s a es t ∧ Q a t

variable {t u : σ} {a : α} {b : β} {es fs : List (ι × σ)}

theorem Eval.pure (a : α) (s : σ) : Eval (Pure.pure a : Prog σ ι τ ε α) s a [] s :=
  fun _ _ => rfl

theorem Eval.bind (hm : Eval m s a es t) (hf : Eval (f a) t b fs u) :
    Eval (m >>= f) s b (fs ++ es) u := by
  intro input log
  show Prog.bind m f _ = _
  unfold Prog.bind
  rw [hm input log]
  show f a _ = _
  rw [hf input (es ++ log), List.append_assoc]

theorem Eval.get {f : σ → Prog σ ι τ ε β} (h : Eval (f s) s b fs u) :
    Eval (Prog.get >>= f) s b fs u := h

theorem Eval.act (l : ι) (s : σ) :
    Eval (Prog.act step l : Prog σ ι τ ε Unit) s () [(l, s)] (step l s) :=
  fun _ _ => rfl

theorem Eval.act_bind {l : ι} {f : Unit → Prog σ ι τ ε β} (h : Eval (f ()) (step l s) b fs u) :
    Eval (Prog.act step l >>= f) s b (fs ++ [(l, s)]) u :=
  (Eval.act l s).bind h

/-- What is specified is true of the evaluation. -/
theorem Spec.eval (hm : Spec step G E m s Q) (h : Eval m s a es t) :
    Trace step G s es t ∧ Q a t := by
  obtain ⟨⟨fs, hlog, htr⟩, hres⟩ := hm ⟨s, [], []⟩ rfl
  rw [h [] []] at hlog htr hres
  rw [List.append_nil, List.append_nil] at hlog
  have hlog : es = fs := hlog
  rw [hlog]
  exact ⟨htr, hres⟩

theorem Yields.pure (h : Q a s) : Yields (Pure.pure a : Prog σ ι τ ε α) s Q :=
  ⟨a, [], s, Eval.pure a s, h⟩

theorem Yields.bind (hm : Yields m s Q) (hf : ∀ a t, Q a t → Yields (f a) t R) :
    Yields (m >>= f) s R := by
  obtain ⟨a, es, t, hev, hq⟩ := hm
  obtain ⟨b, fs, u, hev', hr⟩ := hf a t hq
  exact ⟨b, _, u, hev.bind hev', hr⟩

theorem Yields.get {f : σ → Prog σ ι τ ε β} (h : Yields (f s) s R) :
    Yields (Prog.get >>= f) s R := h

theorem Yields.imp (h : Yields m s Q) (hq : ∀ a t, Q a t → Q' a t) : Yields m s Q' := by
  obtain ⟨a, es, t, hev, hqa⟩ := h
  exact ⟨a, es, t, hev, hq a t hqa⟩

/-- A program has one result. -/
theorem Yields.both (h : Yields m s Q) (h' : Yields m s Q') :
    Yields m s fun a t => Q a t ∧ Q' a t := by
  obtain ⟨a, es, t, hev, hq⟩ := h
  obtain ⟨a', es', t', hev', hq'⟩ := h'
  have heq := (hev [] []).symm.trans (hev' [] [])
  rw [List.append_nil, List.append_nil] at heq
  cases heq
  exact ⟨a, es, t, hev, hq, hq'⟩

theorem Yields.act {l : ι} {Q : Unit → σ → Prop} (h : Q () (step l s)) :
    Yields (Prog.act step l : Prog σ ι τ ε Unit) s Q :=
  ⟨(), _, _, Eval.act l s, h⟩

theorem Yields.act_bind {l : ι} {f : Unit → Prog σ ι τ ε β} (h : Yields (f ()) (step l s) R) :
    Yields (Prog.act step l >>= f) s R := by
  obtain ⟨b, fs, u, hev, hr⟩ := h
  exact ⟨b, _, u, hev.act_bind, hr⟩

/-- What is specified holds where the program returns. -/
theorem Yields.spec (h : Yields m s Q) (hm : Spec step G E m s Q') :
    Yields m s (fun a t => Q a t ∧ Q' a t ∧ Reaches step G s t) := by
  obtain ⟨a, es, t, hev, hq⟩ := h
  obtain ⟨htr, hq'⟩ := hm.eval hev
  exact ⟨a, es, t, hev, hq, hq', es, htr⟩

/-! ## Labels -/

variable (step) in
/-- Whatever it does, `m` takes only steps with labels in `A`. -/
def Writes (A : ι → Prop) (m : Prog σ ι τ ε α) : Prop :=
  ∀ s, Spec step (fun l _ => A l) (fun _ => True) m s fun _ _ => True

variable {A B : ι → Prop}

theorem Writes.pure (a : α) : Writes step A (Pure.pure a : Prog σ ι τ ε α) := fun _ => Spec.pure trivial

theorem Writes.stop (e : ε) : Writes step A (Prog.stop e : Prog σ ι τ ε α) := fun _ => Spec.stop trivial

theorem Writes.act {l : ι} (h : A l) : Writes step A (Prog.act step l : Prog σ ι τ ε Unit) :=
  fun _ => Spec.act h trivial

theorem Writes.bind (hm : Writes step A m) (hf : ∀ a, Writes step A (f a)) :
    Writes step A (m >>= f) := fun s => Spec.bind (hm s) fun a t _ _ => hf a t

theorem Writes.act_bind {l : ι} {f : Unit → Prog σ ι τ ε β} (h : A l) (hf : Writes step A (f ())) :
    Writes step A (Prog.act step l >>= f) := Writes.bind (Writes.act h) fun _ => hf

theorem Writes.get {f : σ → Prog σ ι τ ε β} (h : ∀ s, Writes step A (f s)) :
    Writes step A (Prog.get >>= f) := fun s => Spec.get (h s s)

theorem Writes.read {e : ε} {f : τ → Prog σ ι τ ε β} (h : ∀ x, Writes step A (f x)) :
    Writes step A (Prog.read e >>= f) := fun s => Spec.read trivial fun x => h x s

theorem Writes.ite {c : Prop} [Decidable c] {m' : Prog σ ι τ ε α} (h : Writes step A m)
    (h' : Writes step A m') : Writes step A (if c then m else m') := by
  split
  · exact h
  · exact h'

/-- The log grows. -/
theorem Writes.grows (h : Writes step A m) (w : World σ ι τ) : w.log <:+ (m w).2.log := by
  obtain ⟨⟨es, hlog, -⟩, -⟩ := h w.st w rfl
  exact ⟨es, hlog.symm⟩

theorem Writes.mono (hAB : ∀ l, A l → B l) (h : Writes step A m) : Writes step B m := by
  rintro s w rfl
  obtain ⟨⟨es, hlog, htr⟩, hres⟩ := h _ w rfl
  exact ⟨⟨es, hlog, htr.mono fun l _ hl => hAB l hl⟩, hres⟩

/-! ## Pre- and postconditions on worlds -/

/-- From a world with `P` the program returns in one with `Q`, or stops in one with `S`, which sees
    the error. -/
def Triple (P : World σ ι τ → Prop) (m : Prog σ ι τ ε α) (Q : α → World σ ι τ → Prop)
    (S : ε → World σ ι τ → Prop) : Prop :=
  ∀ w, P w → match (m w).1 with
    | .ok a => Q a (m w).2
    | .error e => S e (m w).2

variable {P : World σ ι τ → Prop} {S : ε → World σ ι τ → Prop} {T : α → World σ ι τ → Prop}
  {U : β → World σ ι τ → Prop}

theorem Triple.pure {a : α} (h : ∀ w, P w → T a w) :
    Triple P (Pure.pure a : Prog σ ι τ ε α) T S := h

theorem Triple.stop {e : ε} (h : ∀ w, P w → S e w) : Triple P (Prog.stop e : Prog σ ι τ ε α) T S := h

theorem Triple.act {l : ι} {T : Unit → World σ ι τ → Prop}
    (h : ∀ w, P w → T () ⟨step l w.st, w.input, (l, w.st) :: w.log⟩) :
    Triple P (Prog.act step l : Prog σ ι τ ε Unit) T S := h

theorem Triple.bind (hm : Triple P m T S) (hf : ∀ a, Triple (T a) (f a) U S) :
    Triple P (m >>= f) U S := by
  intro w hw
  have hmw := hm w hw
  show match (Prog.bind m f w).1 with
    | .ok b => U b (Prog.bind m f w).2
    | .error e => S e (Prog.bind m f w).2
  unfold Prog.bind
  rcases heq : m w with ⟨r, w'⟩
  rw [heq] at hmw
  cases r with
  | error e => exact hmw
  | ok a => exact hf a w' hmw

/-- Reading the state: the rest of the program knows that it is this one. -/
theorem Triple.get {f : σ → Prog σ ι τ ε β} (h : ∀ s, Triple (fun w => P w ∧ w.st = s) (f s) U S) :
    Triple P (Prog.get >>= f) U S := fun w hw => h w.st w ⟨hw, rfl⟩

/-- Reading the state, where the rest of the program is the same whatever it is. -/
theorem Triple.peek {f : σ → Prog σ ι τ ε β} (h : ∀ s, Triple P (f s) U S) :
    Triple P (Prog.get >>= f) U S := fun w hw => h w.st w hw

theorem Triple.imp {P' : World σ ι τ → Prop} {T' : α → World σ ι τ → Prop} (h : Triple P m T S)
    (hP : ∀ w, P' w → P w) (hT : ∀ a w, T a w → T' a w) : Triple P' m T' S := by
  intro w hw
  have hmw := h w (hP w hw)
  rcases hr : (m w).1 with e | a
  · rw [hr] at hmw
    exact hmw
  · rw [hr] at hmw
    exact hT a _ hmw

/-- A weaker postcondition for the stops. -/
theorem Triple.weaken {S' : ε → World σ ι τ → Prop} (h : Triple P m T S)
    (hS : ∀ e w, S e w → S' e w) : Triple P m T S' := by
  intro w hw
  have hmw := h w hw
  rcases hr : (m w).1 with e | a
  · rw [hr] at hmw
    exact hS _ _ hmw
  · rw [hr] at hmw
    exact hmw

/-- Two triples about one program. -/
theorem Triple.both {P' : World σ ι τ → Prop} {T' : α → World σ ι τ → Prop}
    {S' : ε → World σ ι τ → Prop} (h : Triple P m T S) (h' : Triple P' m T' S') :
    Triple (fun w => P w ∧ P' w) m (fun a w => T a w ∧ T' a w) (fun e w => S e w ∧ S' e w) := by
  rintro w ⟨hw, hw'⟩
  have hmw := h w hw
  have hmw' := h' w hw'
  rcases hr : (m w).1 with e | a
  · rw [hr] at hmw hmw'
    exact ⟨hmw, hmw'⟩
  · rw [hr] at hmw hmw'
    exact ⟨hmw, hmw'⟩

/-- What every guarded step keeps, a program keeps whose steps are guarded. -/
theorem Spec.triple (hm : Spec step G E m s Q)
    (hP : ∀ l s log i, G l s → P ⟨s, i, log⟩ → P ⟨step l s, i, (l, s) :: log⟩)
    (hi : ∀ s log i i', P ⟨s, i, log⟩ → P ⟨s, i', log⟩) :
    Triple (fun w => w.st = s ∧ P w) m (fun a w => P w ∧ Q a w.st) fun _ => P := by
  rintro w ⟨rfl, hw⟩
  obtain ⟨⟨es, hlog, htr⟩, hres⟩ := hm w rfl
  have hkeep : ∀ {s t : σ} {es : List (ι × σ)}, Trace step G s es t →
      ∀ log i, P ⟨s, i, log⟩ → P ⟨t, i, es ++ log⟩ := by
    intro s t es htr log i hs
    induction htr with
    | nil => exact hs
    | snoc _ hl ih => exact hP _ _ _ i hl ih
  have hend : P (m w).2 := by
    have := hi _ _ _ (m w).2.input (hkeep htr w.log w.input hw)
    rwa [← hlog] at this
  rcases hmw : (m w).1 with e | a
  · exact hend
  · rw [hmw] at hres
    exact ⟨hend, hres⟩

/-- What is known of the program from a specification as well. -/
theorem Triple.spec (h : Triple (fun w => w.st = s ∧ P w) m T S) (hm : Spec step G E m s Q) :
    Triple (fun w => w.st = s ∧ P w) m (fun a w => T a w ∧ Q a w.st ∧ Reaches step G s w.st) S := by
  rintro w ⟨rfl, hw⟩
  have hmw := h w ⟨rfl, hw⟩
  obtain ⟨⟨es, -, htr⟩, hres⟩ := hm w rfl
  rcases hr : (m w).1 with e | a
  · rw [hr] at hmw
    exact hmw
  · rw [hr] at hmw hres
    exact ⟨hmw, hres, es, htr⟩

/-- What a step with a label in `A` keeps, a program that writes `A` keeps. -/
theorem Writes.triple (hm : Writes step A m)
    (hP : ∀ l s log i, A l → P ⟨s, i, log⟩ → P ⟨step l s, i, (l, s) :: log⟩)
    (hi : ∀ s log i i', P ⟨s, i, log⟩ → P ⟨s, i', log⟩) :
    Triple P m (fun _ => P) fun _ => P := by
  intro w hw
  have hmw := Spec.triple (hm w.st) hP hi w ⟨rfl, hw⟩
  rcases hr : (m w).1 with e | a
  · rw [hr] at hmw
    exact hmw
  · rw [hr] at hmw
    exact hmw.1

end Msvl.Run
