/-
  Programs on a given input.

  `Consumes obs m s ins Q` — from `s`, the program returns after reading exactly `ins`, whatever
  comes behind it, and `Q` holds of the value, of what `obs` shows of the steps taken, oldest first,
  and of the last state.  Inputs and observations of one part follow those of the part before it
  (`Consumes.bind`).
-/
import LibMSVL.Lib.Prog

namespace Msvl.Run

variable {σ ι τ ε α β ω : Type} {step : ι → σ → σ} {obs : ι → Option ω}

/-- What is to be seen of a log, oldest first. -/
def seen (obs : ι → Option ω) (es : List (ι × σ)) : List ω := es.reverse.filterMap fun e => obs e.1

theorem seen_append (es fs : List (ι × σ)) : seen obs (fs ++ es) = seen obs es ++ seen obs fs := by
  rw [seen, List.reverse_append, List.filterMap_append]
  rfl

def Consumes (obs : ι → Option ω) (m : Prog σ ι τ ε α) (s : σ) (ins : List τ)
    (Q : α → List ω → σ → Prop) : Prop :=
  ∃ a es t, (∀ rest log, m ⟨s, ins ++ rest, log⟩ = (.ok a, ⟨t, rest, es ++ log⟩)) ∧
    Q a (seen obs es) t

variable {m : Prog σ ι τ ε α} {f : α → Prog σ ι τ ε β} {s t : σ} {ins ins' : List τ}
  {Q Q' : α → List ω → σ → Prop} {R : β → List ω → σ → Prop}

/-- A program that reads nothing. -/
theorem Consumes.of_eval {a : α} {es : List (ι × σ)} (h : Eval m s a es t)
    (hq : Q a (seen obs es) t) : Consumes obs m s [] Q :=
  ⟨a, es, t, h, hq⟩

theorem Consumes.pure {a : α} (h : Q a [] s) :
    Consumes obs (Pure.pure a : Prog σ ι τ ε α) s [] Q :=
  .of_eval (Eval.pure a s) h

theorem Consumes.imp (h : Consumes obs m s ins Q) (hq : ∀ a o t, Q a o t → Q' a o t) :
    Consumes obs m s ins Q' := by
  obtain ⟨a, es, t, hrun, hqa⟩ := h
  exact ⟨a, es, t, hrun, hq _ _ _ hqa⟩

/-- The run on the input and nothing else. -/
theorem Consumes.run (h : Consumes obs m s ins Q) :
    ∃ a es t, m ⟨s, ins, []⟩ = (.ok a, ⟨t, [], es⟩) ∧ Q a (seen obs es) t := by
  obtain ⟨a, es, t, hrun, hq⟩ := h
  have hrun := hrun [] []
  rw [List.append_nil, List.append_nil] at hrun
  exact ⟨a, es, t, hrun, hq⟩

theorem Consumes.bind (hm : Consumes obs m s ins Q)
    (hf : ∀ a o t, Q a o t → Consumes obs (f a) t ins' fun b o' u => R b (o ++ o') u) :
    Consumes obs (m >>= f) s (ins ++ ins') R := by
  obtain ⟨a, es, t, hrun, hq⟩ := hm
  obtain ⟨b, fs, u, hrun', hr⟩ := hf _ _ _ hq
  refine ⟨b, fs ++ es, u, fun rest log => ?_, ?_⟩
  · show Prog.bind m f _ = _
    unfold Prog.bind
    rw [List.append_assoc, hrun]
    show f a _ = _
    rw [hrun', List.append_assoc]
  · rw [seen_append]
    exact hr

/-- The second part stops at once. -/
theorem Consumes.bind_stop {e : ε} (hm : Consumes obs m s ins Q)
    (hf : ∀ a o t, Q a o t → ∀ rest log, f a ⟨t, rest, log⟩ = (.error e, ⟨t, rest, log⟩)) :
    ∃ a es t, (∀ rest log, (m >>= f) ⟨s, ins ++ rest, log⟩ = (.error e, ⟨t, rest, es ++ log⟩)) ∧
      Q a (seen obs es) t := by
  obtain ⟨a, es, t, hrun, hq⟩ := hm
  exact ⟨a, es, t, fun rest log => (Prog.bind_ok (hrun rest log)).trans (hf a _ t hq rest _), hq⟩

/-- The first part reads nothing. -/
theorem Consumes.bind_nil (hm : Consumes obs m s [] Q)
    (hf : ∀ a o t, Q a o t → Consumes obs (f a) t ins fun b o' u => R b (o ++ o') u) :
    Consumes obs (m >>= f) s ins R :=
  Consumes.bind hm hf

theorem Consumes.get {f : σ → Prog σ ι τ ε β} (h : Consumes obs (f s) s ins R) :
    Consumes obs (Prog.get >>= f) s ins R := h

/-- The next item is read. -/
theorem Consumes.read {e : ε} {x : τ} {f : τ → Prog σ ι τ ε β} (h : Consumes obs (f x) s ins R) :
    Consumes obs (Prog.read e >>= f) s (x :: ins) R := h

theorem Consumes.act {l : ι} {Q : Unit → List ω → σ → Prop} (h : Q () (obs l).toList (step l s)) :
    Consumes obs (Prog.act step l : Prog σ ι τ ε Unit) s [] Q := by
  refine .of_eval (Eval.act l s) ?_
  have hseen : seen obs [(l, s)] = (obs l).toList := by
    cases hl : obs l with
    | none => simp [seen, hl]
    | some x => simp [seen, hl]
  rw [hseen]
  exact h

theorem Consumes.act_bind {l : ι} {f : Unit → Prog σ ι τ ε β}
    (h : Consumes obs (f ()) (step l s) ins fun b o u => R b ((obs l).toList ++ o) u) :
    Consumes obs (Prog.act step l >>= f) s ins R := by
  have hone : Consumes obs (Prog.act step l : Prog σ ι τ ε Unit) s []
      fun _ o u => o = (obs l).toList ∧ u = step l s := .act ⟨rfl, rfl⟩
  refine hone.bind_nil ?_
  rintro _ _ _ ⟨rfl, rfl⟩
  exact h

/-- A program that returns without reading, and whose steps show nothing. -/
theorem Consumes.of_yields {A : ι → Prop} {Q : α → σ → Prop} (h : Yields m s Q)
    (hw : Writes step A m) (hA : ∀ l, A l → obs l = none) :
    Consumes obs m s [] fun a o t => o = [] ∧ Q a t ∧ Reaches step (fun l _ => A l) s t := by
  obtain ⟨a, es, t, hev, hq⟩ := h
  obtain ⟨htr, -⟩ := (hw s).eval hev
  refine .of_eval hev ⟨?_, hq, es, htr⟩
  refine List.filterMap_eq_nil_iff.mpr fun e he => ?_
  obtain ⟨l, u⟩ := e
  exact hA l ((htr.keeps (I := fun _ => True) (fun _ _ _ h => h) trivial).2 l u
    (List.mem_reverse.mp he)).2

/-- What is specified is true of the program's end, too. -/
theorem Consumes.spec {G : ι → σ → Prop} {E : ε → Prop} {P : α → σ → Prop}
    (h : Consumes obs m s ins Q) (hm : Spec step G E m s P) :
    Consumes obs m s ins fun a o t => Q a o t ∧ P a t ∧ Reaches step G s t := by
  obtain ⟨a, es, t, hrun, hq⟩ := h
  obtain ⟨⟨fs, -, htr⟩, hres⟩ := hm ⟨s, ins ++ [], []⟩ rfl
  rw [hrun [] []] at htr hres
  exact ⟨a, es, t, hrun, hq, hres, fs, htr⟩

end Msvl.Run
