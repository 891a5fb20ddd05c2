import Mathlib.Tactic

namespace Gavea.Lib.Runs

variable {σ ε : Type*} (step : σ → ε → Option σ)

/-- The state after a list of events, if each of them can happen in its turn. -/
def run (s : σ) (es : List ε) : Option σ := es.foldlM step s

@[simp] theorem run_nil (s : σ) : run step s [] = some s := rfl

@[simp] theorem run_cons (s : σ) (e : ε) (es : List ε) :
    run step s (e :: es) = (step s e).bind fun s' => run step s' es := by
  simp [run, List.foldlM_cons]

theorem run_append (s : σ) (es es' : List ε) :
    run step s (es ++ es') = (run step s es).bind fun s' => run step s' es' := by
  simp [run, List.foldlM_append]

theorem run_append_eq_some {s s' : σ} {es es' : List ε} (h : run step s (es ++ es') = some s') :
    ∃ m, run step s es = some m ∧ run step m es' = some s' := by
  rw [run_append] at h
  exact Option.bind_eq_some_iff.mp h

/-- Every step of the run is taken in a state in which ok allows it. -/
def Guarded (ok : σ → ε → Prop) : σ → List ε → Prop
  | _, [] => True
  | s, e :: es => ok s e ∧ ∀ s' ∈ step s e, Guarded ok s' es

instance Guarded.decidable (ok : σ → ε → Prop) [∀ s e, Decidable (ok s e)] :
    (s : σ) → (es : List ε) → Decidable (Guarded step ok s es)
  | _, [] => inferInstanceAs (Decidable True)
  | s, e :: es =>
    match h : step s e with
    | none => decidable_of_iff (ok s e) (by simp [Guarded, h])
    | some s' =>
      have := Guarded.decidable ok s' es
      decidable_of_iff (ok s e ∧ Guarded step ok s' es) (by simp [Guarded, h])

variable {step}

theorem Guarded.of_append {ok : σ → ε → Prop} {s m : σ} {es es' : List ε}
    (h : Guarded step ok s (es ++ es')) (hm : run step s es = some m) :
    Guarded step ok s es ∧ Guarded step ok m es' := by
  induction es generalizing s with
  | nil =>
    obtain rfl := Option.some.inj hm
    exact ⟨trivial, h⟩
  | cons e es ih =>
    rw [run_cons] at hm
    obtain ⟨s', hs', hm⟩ := Option.bind_eq_some_iff.mp hm
    obtain ⟨h1, h2⟩ := ih (h.2 s' hs') hm
    refine ⟨⟨h.1, fun s'' hs'' => ?_⟩, h2⟩
    rw [hs'] at hs''
    obtain rfl := Option.some.inj hs''
    exact h1

theorem Guarded.of_forall {ok : σ → ε → Prop} {s : σ} {es : List ε}
    (h : ∀ e ∈ es, ∀ s, ok s e) : Guarded step ok s es := by
  induction es generalizing s with
  | nil => trivial
  | cons e es ih => exact ⟨h e List.mem_cons_self s, fun _ _ => ih fun e' he' => h e' (List.mem_cons_of_mem e he')⟩

theorem guarded_run_invariant {ok : σ → ε → Prop} (Inv : List ε → σ → Prop)
    (hstep : ∀ past s e s', Inv past s → ok s e → step s e = some s' → Inv (past ++ [e]) s')
    (past : List ε) {s s' : σ} {es : List ε} (h : Inv past s) (hok : Guarded step ok s es)
    (hrun : run step s es = some s') : Inv (past ++ es) s' := by
  induction es generalizing past s with
  | nil =>
    obtain rfl := Option.some.inj hrun
    rwa [List.append_nil]
  | cons e es ih =>
    rw [run_cons] at hrun
    obtain ⟨m, hm, hrun⟩ := Option.bind_eq_some_iff.mp hrun
    rw [List.append_cons]
    exact ih (past ++ [e]) (hstep past s e m h hok.1 hm) (hok.2 m hm) hrun

theorem run_invariant {ok : σ → ε → Prop} (Inv : σ → Prop)
    (hstep : ∀ s e s', Inv s → ok s e → step s e = some s' → Inv s') {s s' : σ} {es : List ε}
    (h : Inv s) (hok : Guarded step ok s es) (hrun : run step s es = some s') : Inv s' :=
  guarded_run_invariant (fun _ => Inv) (fun _ => hstep) [] h hok hrun

end Gavea.Lib.Runs
