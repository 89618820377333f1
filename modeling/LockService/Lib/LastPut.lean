import LockService.Lib.Run

/-!
# The last value put

A machine whose steps put values under keys, and otherwise leave them, has under each key at the
end of a run what was put there last (`Run.last_or_kept`).
-/

namespace Run

variable {σ ε κ ν : Type*} {next : σ → ε → Option σ}

/-- A value was put under the key in the run, and nothing after it. -/
def LastPut (next : σ → ε → Option σ) (puts : σ → ε → κ → ν → Prop) (s : σ) (es : List ε) (k : κ)
    (v : ν) : Prop :=
  ∃ es₁ e es₂ t t', es = es₁ ++ e :: es₂ ∧ run next s es₁ = some t ∧ next t e = some t' ∧
    puts t e k v ∧ Along next (fun t e _ => ∀ v, ¬ puts t e k v) t' es₂

/-- Nothing was put under the key in the run. -/
def NonePut (next : σ → ε → Option σ) (puts : σ → ε → κ → ν → Prop) (s : σ) (es : List ε)
    (k : κ) : Prop :=
  Along next (fun t e _ => ∀ v, ¬ puts t e k v) s es

variable {puts : σ → ε → κ → ν → Prop} {s s' t : σ} {e : ε} {es : List ε} {k : κ} {v : ν}

theorem LastPut.cons (hn : next s e = some t) (h : LastPut next puts t es k v) :
    LastPut next puts s (e :: es) k v := by
  obtain ⟨es₁, e', es₂, u, u', rfl, hrun, hnext, hput, hnone⟩ := h
  exact ⟨e :: es₁, e', es₂, u, u', rfl, run_cons_eq_some.mpr ⟨t, hn, hrun⟩, hnext, hput, hnone⟩

/-- Each step leaves what it puts, and elsewhere what there was; then so does a run. -/
theorem last_or_kept (obs : σ → κ → ν) {I : σ → Prop} {P : σ → ε → σ → Prop}
    (step : ∀ s e s', I s → P s e s' → next s e = some s' → I s' ∧
      ∀ k, puts s e k (obs s' k) ∨ (∀ v, ¬ puts s e k v) ∧ obs s' k = obs s k) (k : κ) :
    ∀ {es : List ε} {s s' : σ}, I s → Along next P s es → run next s es = some s' →
      LastPut next puts s es k (obs s' k) ∨ NonePut next puts s es k ∧ obs s' k = obs s k
  | [], s, s', _, _, h => by
    obtain rfl : s = s' := by simpa [run] using h
    exact .inr ⟨trivial, rfl⟩
  | e :: es, s, s', hI, ha, h => by
    obtain ⟨t, ht, h⟩ := run_cons_eq_some.mp h
    obtain ⟨hP, ha⟩ := ha t ht
    obtain ⟨hI', hobs⟩ := step s e t hI hP ht
    rcases last_or_kept obs step k hI' ha h with hlast | ⟨hnone, hkept⟩
    · exact .inl (hlast.cons ht)
    rcases hobs k with hput | ⟨hno, hsame⟩
    · exact .inl ⟨[], e, es, s, t, rfl, rfl, ht, hkept ▸ hput, hnone⟩
    · refine .inr ⟨fun u hu => ?_, hkept.trans hsame⟩
      obtain rfl := Option.some.inj (ht.symm.trans hu)
      exact ⟨hno, hnone⟩

end Run
