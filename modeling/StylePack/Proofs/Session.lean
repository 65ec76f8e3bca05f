import StylePack.Session

/-! What actions do, step by step: from the session they start on to how they end and the session
they leave. -/
namespace StylePack.Action
variable {α β ρ : Type} {act : Action α} {s s' : Session} {a : α} {failure : Failure} {d : Disk}

/-- How an action ends that goes on with a session, and what it leaves behind. -/
def runOn (act : Action α) (s : Session) : Except Failure α × Session := (ExceptT.run act).run s

theorem perform_eq (act : Action α) (d : Disk) : act.perform d = runOn act ⟨d, []⟩ := rfl

theorem runOn_bind (act : Action α) (f : α → Action β) (s : Session) :
    runOn (act >>= f) s = match runOn act s with
      | (.ok a, s') => runOn (f a) s'
      | (.error failure, s') => (.error failure, s') := by
  unfold runOn
  simp only [ExceptT.run_bind, StateT.run_bind]
  cases h : StateT.run (ExceptT.run act) s with
  | mk result s' => cases result <;> rfl

theorem runOn_bind_ok (h : runOn act s = (.ok a, s')) (f : α → Action β) :
    runOn (act >>= f) s = runOn (f a) s' := by
  rw [runOn_bind, h]

theorem runOn_disk (s : Session) : runOn disk s = (.ok s.disk, s) := rfl

theorem runOn_say (e : Console.Event) (s : Session) :
    runOn (say e) s = (.ok (), { s with said := s.said ++ [e] }) := rfl

theorem runOn_sayAll (es : List Console.Event) (s : Session) :
    runOn (sayAll es) s = (.ok (), { s with said := s.said ++ es }) := rfl

theorem runOn_attempt_ok {change : Disk → Except ρ α × Disk} (cause : ρ → Failure)
    (h : change s.disk = (.ok a, d)) :
    runOn (attempt cause change) s = (.ok a, { s with disk := d }) := by
  rw [attempt, runOn_bind_ok (runOn_disk s), h]
  rfl

theorem runOn_attempt_error {change : Disk → Except ρ α × Disk} {r : ρ} (cause : ρ → Failure)
    (h : change s.disk = (.error r, d)) :
    runOn (attempt cause change) s = (.error (cause r), { s with disk := d }) := by
  rw [attempt, runOn_bind_ok (runOn_disk s), h]
  rfl

theorem runOn_answer_ok (cause : ρ → Failure) (a : α) (s : Session) :
    runOn (answer cause (.ok a)) s = (.ok a, s) := rfl

end StylePack.Action
