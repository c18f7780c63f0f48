/-
  Specifications of programs in runs that meet a condition.

  `Under ok I R m w Q` — from the world `w` the program `m` only adds to the log; if that meets `ok`
  in the end, then `I` holds there, `R` relates the two worlds, and what is returned meets `Q`.

  `ok` is closed under prefixes, so what is assumed at the end has held before.  For the same reason
  a rule may use what is known after a call only where the log is `ok` then: the rest of the program
  is specified under this hypothesis (`Under.bind`).
-/
import LibMSVL.Lib.Prog

namespace Msvl.Run

variable {σ ι τ ε α β : Type} {step : ι → σ → σ}

section

variable (ok : List (ι × σ) → Prop) (I : World σ ι τ → Prop)
  (R : World σ ι τ → World σ ι τ → Prop)

def Under (m : Prog σ ι τ ε α) (w : World σ ι τ) (Q : α → World σ ι τ → Prop) : Prop :=
  w.log <:+ (m w).2.log ∧ (ok (m w).2.log → I (m w).2 ∧ R w (m w).2 ∧
    ∀ a, (m w).1 = .ok a → Q a (m w).2)

end

variable {ok : List (ι × σ) → Prop} {I : World σ ι τ → Prop}
  {R R' : World σ ι τ → World σ ι τ → Prop} {w : World σ ι τ} {m m' : Prog σ ι τ ε α}
  {f : α → Prog σ ι τ ε β} {Q T : α → World σ ι τ → Prop} {P : β → World σ ι τ → Prop}

theorem Under.pure {a : α} (hrefl : ∀ w, R w w) (hw : ok w.log → I w ∧ Q a w) :
    Under ok I R (Pure.pure a : Prog σ ι τ ε α) w Q := by
  refine ⟨List.suffix_refl _, fun hok => ⟨(hw hok).1, hrefl w, ?_⟩⟩
  rintro _ ⟨⟩
  exact (hw hok).2

theorem Under.stop {e : ε} (hrefl : ∀ w, R w w) (hw : ok w.log → I w) :
    Under ok I R (Prog.stop e : Prog σ ι τ ε α) w Q :=
  ⟨List.suffix_refl _, fun hok => ⟨hw hok, hrefl w, nofun⟩⟩

theorem Under.get {f : σ → Prog σ ι τ ε β} (h : Under ok I R (f w.st) w P) :
    Under ok I R (Prog.get >>= f) w P := h

/-- A last step. -/
theorem Under.act {l : ι} {Q : Unit → World σ ι τ → Prop}
    (h : ok ((l, w.st) :: w.log) → I ⟨step l w.st, w.input, (l, w.st) :: w.log⟩ ∧
      R w ⟨step l w.st, w.input, (l, w.st) :: w.log⟩ ∧
      Q () ⟨step l w.st, w.input, (l, w.st) :: w.log⟩) :
    Under ok I R (Prog.act step l : Prog σ ι τ ε Unit) w Q := by
  refine ⟨List.suffix_cons _ _, fun hok => ?_⟩
  obtain ⟨hI, hR, hQ⟩ := h hok
  exact ⟨hI, hR, fun _ _ => hQ⟩

/-- A last call. -/
theorem Under.last (hclosed : ∀ {log log'}, log <:+ log' → ok log' → ok log)
    (hm : Under ok I R' m w T) (hR : ok w.log → ∀ u, R' w u → R w u)
    (hq : ∀ a u, ok u.log → ok w.log → I u → R' w u → T a u → Q a u) : Under ok I R m w Q := by
  obtain ⟨hgrow, hm⟩ := hm
  refine ⟨hgrow, fun hok => ?_⟩
  obtain ⟨hI, hR', ht⟩ := hm hok
  have hstart := hclosed hgrow hok
  exact ⟨hI, hR hstart _ hR', fun a ha => hq a _ hok hstart hI hR' (ht a ha)⟩

/-- A call, and the rest. -/
theorem Under.bind (hclosed : ∀ {log log'}, log <:+ log' → ok log' → ok log)
    (htrans : ∀ u v w, R u v → R v w → R u w) (hm : Under ok I R' m w T)
    (hR : ok w.log → ∀ u, R' w u → R w u)
    (hf : ∀ a u, (ok u.log → ok w.log ∧ I u ∧ R' w u ∧ T a u) → Under ok I R (f a) u P) :
    Under ok I R (m >>= f) w P := by
  show w.log <:+ (Prog.bind m f w).2.log ∧ (ok (Prog.bind m f w).2.log →
    I (Prog.bind m f w).2 ∧ R w (Prog.bind m f w).2 ∧
      ∀ c, (Prog.bind m f w).1 = .ok c → P c (Prog.bind m f w).2)
  unfold Prog.bind
  obtain ⟨hgrow, hm⟩ := hm
  rcases hmw : m w with ⟨r, u⟩
  rw [hmw] at hgrow hm
  cases r with
  | error e =>
    refine ⟨hgrow, fun hok => ?_⟩
    obtain ⟨hI, hR', -⟩ := hm hok
    exact ⟨hI, hR (hclosed hgrow hok) _ hR', nofun⟩
  | ok a =>
    have hknown : ok u.log → ok w.log ∧ I u ∧ R' w u ∧ T a u := by
      intro hok
      obtain ⟨hI, hR', hq⟩ := hm hok
      exact ⟨hclosed hgrow hok, hI, hR', hq a rfl⟩
    obtain ⟨hgrow', hf⟩ := hf a u hknown
    refine ⟨hgrow.trans hgrow', fun hok => ?_⟩
    obtain ⟨hI, hR', hp⟩ := hf hok
    obtain ⟨hstart, -, hR'', -⟩ := hknown (hclosed hgrow' hok)
    exact ⟨hI, htrans _ _ _ (hR hstart _ hR'') hR', hp⟩

/-- A step, and the rest. -/
theorem Under.act_bind {l : ι} {f : Unit → Prog σ ι τ ε β}
    (hclosed : ∀ {log log'}, log <:+ log' → ok log' → ok log)
    (htrans : ∀ u v w, R u v → R v w → R u w)
    (hl : ok ((l, w.st) :: w.log) → I ⟨step l w.st, w.input, (l, w.st) :: w.log⟩ ∧
      R w ⟨step l w.st, w.input, (l, w.st) :: w.log⟩)
    (hf : (ok ((l, w.st) :: w.log) → ok w.log ∧
        I ⟨step l w.st, w.input, (l, w.st) :: w.log⟩ ∧
        R w ⟨step l w.st, w.input, (l, w.st) :: w.log⟩) →
      Under ok I R (f ()) ⟨step l w.st, w.input, (l, w.st) :: w.log⟩ P) :
    Under ok I R (Prog.act step l >>= f) w P := by
  obtain ⟨hgrow, hf⟩ := hf fun hok => ⟨hclosed (List.suffix_cons _ _) hok, hl hok⟩
  refine ⟨(List.suffix_cons _ _).trans hgrow, fun hok => ?_⟩
  obtain ⟨hI, hR, hp⟩ := hf hok
  exact ⟨hI, htrans _ _ _ (hl (hclosed hgrow hok)).2 hR, hp⟩

/-- A program that stops, or returns and has done nothing. -/
theorem Under.skip (hrefl : ∀ w, R w w) (hw : ok w.log → I w) {a : α}
    (hm : m w = (.ok a, w) ∨ ∃ e, m w = (.error e, w)) (hf : Under ok I R (f a) w P) :
    Under ok I R (m >>= f) w P := by
  show w.log <:+ (Prog.bind m f w).2.log ∧ (ok (Prog.bind m f w).2.log →
    I (Prog.bind m f w).2 ∧ R w (Prog.bind m f w).2 ∧
      ∀ c, (Prog.bind m f w).1 = .ok c → P c (Prog.bind m f w).2)
  unfold Prog.bind
  rcases hm with heq | ⟨e, heq⟩
  · rw [heq]
    exact hf
  · rw [heq]
    exact ⟨List.suffix_refl _, fun hok => ⟨hw hok, hrefl w, nofun⟩⟩

/-- A program whose steps are specified: what each of them keeps, besides `I` and `R`. -/
theorem Under.spec {G : ι → σ → Prop} {E : ε → Prop} {Q : α → σ → Prop} {J : World σ ι τ → Prop}
    (hgrow : w.log <:+ (m w).2.log) (hclosed : ∀ {log log'}, log <:+ log' → ok log' → ok log)
    (hw : ok w.log → I w ∧ R w w ∧ J w ∧ Spec step G E m w.st Q)
    (hstep : ∀ l u, G l u.st → ok ((l, u.st) :: u.log) → I u ∧ R w u ∧ J u →
      I ⟨step l u.st, u.input, (l, u.st) :: u.log⟩ ∧ R w ⟨step l u.st, u.input, (l, u.st) :: u.log⟩ ∧
        J ⟨step l u.st, u.input, (l, u.st) :: u.log⟩)
    (hinput : ∀ u i, I u ∧ R w u ∧ J u → I ⟨u.st, i, u.log⟩ ∧ R w ⟨u.st, i, u.log⟩ ∧
      J ⟨u.st, i, u.log⟩) :
    Under ok I R m w fun a u => J u ∧ Q a u.st := by
  refine ⟨hgrow, fun hok => ?_⟩
  obtain ⟨hI, hR, hJ, hspec⟩ := hw (hclosed hgrow hok)
  have hm := hspec.triple (P := fun u => ok u.log → I u ∧ R w u ∧ J u) ?_ ?_ w
    ⟨rfl, fun _ => ⟨hI, hR, hJ⟩⟩
  · rcases hr : (m w).1 with e | a
    · rw [hr] at hm
      exact ⟨(hm hok).1, (hm hok).2.1, nofun⟩
    · rw [hr] at hm
      refine ⟨(hm.1 hok).1, (hm.1 hok).2.1, ?_⟩
      rintro _ ⟨⟩
      exact ⟨(hm.1 hok).2.2, hm.2⟩
  · exact fun l s log i hl hp hok => hstep l ⟨s, i, log⟩ hl hok
      (hp (hclosed (List.suffix_cons _ _) hok))
  · exact fun s log i i' hp hok => hinput ⟨s, i, log⟩ i' (hp hok)

end Msvl.Run
