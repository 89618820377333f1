import Mathlib.Data.Finset.Basic

/-!
# Runs of a partial step function

A machine is a function from a state and an event to the next state, or to nothing when it stops
for good. What one step preserves a whole run preserves (`Run.invariant`), and it may rest on a
condition that every step of the run is known to meet (`Run.Along`).
-/

namespace Run

variable {σ ε : Type*} {next : σ → ε → Option σ}

/-- The state a list of events leads to. -/
def run (next : σ → ε → Option σ) : σ → List ε → Option σ
  | s, [] => some s
  | s, e :: es => (next s e).bind fun s' => run next s' es

/-- Every step of the run meets a condition. -/
def Along (next : σ → ε → Option σ) (P : σ → ε → σ → Prop) : σ → List ε → Prop
  | _, [] => True
  | s, e :: es => ∀ s', next s e = some s' → P s e s' ∧ Along next P s' es

theorem run_cons_eq_some {s s' : σ} {e : ε} {es : List ε} :
    run next s (e :: es) = some s' ↔ ∃ t, next s e = some t ∧ run next t es = some s' :=
  Option.bind_eq_some_iff

theorem run_append_eq_some :
    ∀ {es es' : List ε} {s s' : σ}, run next s (es ++ es') = some s' ↔
      ∃ t, run next s es = some t ∧ run next t es' = some s'
  | [], es', s, s' => by simp [run]
  | e :: es, es', s, s' => by
    simp only [List.cons_append, run_cons_eq_some, run_append_eq_some]
    constructor
    · rintro ⟨u, hu, t, ht, h⟩
      exact ⟨t, ⟨u, hu, ht⟩, h⟩
    · rintro ⟨t, ⟨u, hu, ht⟩, h⟩
      exact ⟨u, hu, t, ht, h⟩

/-- A machine that never stops has a run for every list of events. -/
theorem isSome_run (h : ∀ s e, (next s e).isSome) : ∀ (es : List ε) (s : σ), (run next s es).isSome
  | [], _ => rfl
  | e :: es, s => by
    obtain ⟨t, ht⟩ := Option.isSome_iff_exists.mp (h s e)
    rw [run, ht]
    exact isSome_run h es t

theorem along_true : ∀ {s : σ} {es : List ε}, Along next (fun _ _ _ => True) s es
  | _, [] => trivial
  | _, _ :: _ => fun _ _ => ⟨trivial, along_true⟩

theorem along_of_forall {P : ε → Prop} :
    ∀ {es : List ε} {s : σ}, (∀ e ∈ es, P e) → Along next (fun _ e _ => P e) s es
  | [], _, _ => trivial
  | _ :: _, _, h => fun _ _ =>
    ⟨h _ (by simp), along_of_forall fun e he => h e (List.mem_cons_of_mem _ he)⟩

/-- A condition on each step can be checked along a run. -/
instance decidableAlong {P : σ → ε → σ → Prop} [∀ s e s', Decidable (P s e s')] :
    ∀ (s : σ) (es : List ε), Decidable (Along next P s es)
  | _, [] => isTrue trivial
  | s, e :: es => match h : next s e with
    | none => isTrue fun t ht => by simp [h] at ht
    | some t =>
      haveI := decidableAlong (P := P) t es
      decidable_of_iff (P s e t ∧ Along next P t es)
        ⟨fun hP u hu => Option.some.inj (h.symm.trans hu) ▸ hP, fun ha => ha t h⟩

theorem Along.and {P Q : σ → ε → σ → Prop} :
    ∀ {s : σ} {es : List ε}, Along next P s es → Along next Q s es →
      Along next (fun s e s' => P s e s' ∧ Q s e s') s es
  | _, [], _, _ => trivial
  | _, _ :: _, hP, hQ => fun t ht =>
    ⟨⟨(hP t ht).1, (hQ t ht).1⟩, (hP t ht).2.and (hQ t ht).2⟩

/-- What an invariant of the run adds to its steps. -/
theorem Along.imp {P Q : σ → ε → σ → Prop} {I : σ → Prop}
    (step : ∀ s e s', I s → P s e s' → next s e = some s' → I s' ∧ Q s e s') :
    ∀ {s : σ} {es : List ε}, I s → Along next P s es → Along next Q s es
  | _, [], _, _ => trivial
  | s, e :: _, hI, ha => fun t ht => by
    obtain ⟨hP, ha⟩ := ha t ht
    obtain ⟨hI', hQ⟩ := step s e t hI hP ht
    exact ⟨hQ, ha.imp step hI'⟩

/-- Two conditions that come to the same in every state of a run are met by the same runs. -/
theorem along_congr {P Q R : σ → ε → σ → Prop} {I : σ → Prop}
    (step : ∀ s e s', I s → R s e s' → next s e = some s' →
      (P s e s' ↔ Q s e s') ∧ (P s e s' → I s')) {s : σ} {es : List ε} (hI : I s)
    (hR : Along next R s es) : Along next P s es ↔ Along next Q s es := by
  constructor
  · refine fun hP => (hR.and hP).imp ?_ hI
    intro s e s' hI h hn
    obtain ⟨hiff, hstep⟩ := step s e s' hI h.1 hn
    exact ⟨hstep h.2, hiff.mp h.2⟩
  · refine fun hQ => (hR.and hQ).imp ?_ hI
    intro s e s' hI h hn
    obtain ⟨hiff, hstep⟩ := step s e s' hI h.1 hn
    exact ⟨hstep (hiff.mpr h.2), hiff.mpr h.2⟩

theorem Along.of_append {P : σ → ε → σ → Prop} :
    ∀ {es es' : List ε} {s t : σ}, Along next P s (es ++ es') → run next s es = some t →
      Along next P s es ∧ Along next P t es'
  | [], _, s, t, ha, h => by
    obtain rfl : s = t := by simpa [run] using h
    exact ⟨trivial, ha⟩
  | e :: es, es', s, t, ha, h => by
    obtain ⟨u, hu, h⟩ := run_cons_eq_some.mp h
    refine ⟨fun u' hu' => ?_, ((ha u hu).2.of_append h).2⟩
    obtain rfl := Option.some.inj (hu.symm.trans hu')
    exact ⟨(ha u hu).1, ((ha u hu).2.of_append h).1⟩

theorem Along.append {P : σ → ε → σ → Prop} :
    ∀ {es es' : List ε} {s t : σ}, Along next P s es → run next s es = some t →
      Along next P t es' → Along next P s (es ++ es')
  | [], _, s, t, _, h, ha' => by
    obtain rfl : s = t := by simpa [run] using h
    exact ha'
  | e :: es, es', s, t, ha, h, ha' => fun u hu => by
    obtain ⟨u', hu', h⟩ := run_cons_eq_some.mp h
    obtain rfl := Option.some.inj (hu.symm.trans hu')
    exact ⟨(ha u hu).1, (ha u hu).2.append h ha'⟩

theorem invariant {P : σ → ε → σ → Prop} {I : σ → Prop}
    (step : ∀ s e s', I s → P s e s' → next s e = some s' → I s') :
    ∀ {es : List ε} {s s' : σ}, I s → Along next P s es → run next s es = some s' → I s'
  | [], s, s', hI, _, h => by
    obtain rfl : s = s' := by simpa [run] using h
    exact hI
  | e :: es, s, s', hI, ha, h => by
    obtain ⟨t, ht, h⟩ := run_cons_eq_some.mp h
    obtain ⟨hP, ha⟩ := ha t ht
    exact invariant step (step s e t hI hP ht) ha h

end Run
