import ObjectVault.Host

namespace ObjectVault

/-- What may change a state and may fail. -/
abbrev Effect (σ ε : Type) := ExceptT ε (StateM σ)

namespace Effect
variable {σ ε α β : Type} {s s' : σ}

theorem bind_apply (run : Effect σ ε α) (f : α → Effect σ ε β) (s : σ) :
    (run >>= f) s =
      match run s with
      | (.ok a, s) => f a s
      | (.error e, s) => (.error e, s) := by
  cases h : run s with
  | mk r s' =>
    simp only [bind, ExceptT.bind, ExceptT.mk, StateT.bind, h]
    cases r <;> rfl

@[simp] theorem pure_apply (a : α) (s : σ) : (pure a : Effect σ ε α) s = (.ok a, s) := rfl

@[simp] theorem throw_apply (e : ε) (s : σ) : (throw e : Effect σ ε α) s = (.error e, s) := rfl

@[simp] theorem lift_apply (r : Except ε α) (s : σ) : (liftM r : Effect σ ε α) s = (r, s) := rfl

@[simp] theorem get_apply (s : σ) : (get : Effect σ ε σ) s = (.ok s, s) := rfl

@[simp] theorem modify_apply (f : σ → σ) (s : σ) :
    (modify f : Effect σ ε PUnit) s = (.ok ⟨⟩, f s) := rfl

/-- A run that succeeds is a run of its first part and then of the rest. -/
theorem bind_eq_ok {run : Effect σ ε α} {f : α → Effect σ ε β} {b : β}
    (h : (run >>= f) s = (.ok b, s')) :
    ∃ a between, run s = (.ok a, between) ∧ f a between = (.ok b, s') := by
  rw [bind_apply] at h
  split at h
  · next a between first => exact ⟨a, between, first, h⟩
  · cases h

/-- A run fails in its first part, or in the rest behind it. -/
theorem bind_eq_error {run : Effect σ ε α} {f : α → Effect σ ε β} {e : ε}
    (h : (run >>= f) s = (.error e, s')) :
    run s = (.error e, s') ∨
      ∃ a between, run s = (.ok a, between) ∧ f a between = (.error e, s') := by
  rw [bind_apply] at h
  split at h
  · next a between first => exact .inr ⟨a, between, first, h⟩
  · next e' between first =>
    cases h
    exact .inl first

theorem bind_of_ok {run : Effect σ ε α} {f : α → Effect σ ε β} {a : α}
    (h : run s = (.ok a, s')) : (run >>= f) s = f a s' := by
  rw [bind_apply, h]

theorem bind_of_error {run : Effect σ ε α} {f : α → Effect σ ε β} {e : ε}
    (h : run s = (.error e, s')) : (run >>= f) s = (.error e, s') := by
  rw [bind_apply, h]

theorem lift_eq {given r : Except ε α} (h : (liftM given : Effect σ ε α) s = (r, s')) :
    given = r ∧ s' = s :=
  ⟨congrArg Prod.fst h, (congrArg Prod.snd h).symm⟩

theorem lift_bind_of_ok {given : Except ε α} {f : α → Effect σ ε β} {a : α} (h : given = .ok a)
    (s : σ) : ((liftM given : Effect σ ε α) >>= f) s = f a s := by
  rw [h]
  exact bind_of_ok (lift_apply _ s)

end Effect

namespace HostM
variable {ε δ α β : Type}

@[simp] theorem draw_apply (count : Nat) (host : Host) :
    (draw count : HostM ε Bytes) host =
      (.ok ((List.range count).map fun i => host.random (host.drawn + i)),
        { host with drawn := host.drawn + count }) := rfl

@[simp] theorem look_apply (f : Directory → Except ε α) (host : Host) :
    look f host = (f host.directory, host) := by
  rw [look, Effect.bind_of_ok (Effect.get_apply host)]
  cases h : f host.directory <;> rfl

theorem look_of_ok {f : Directory → Except ε α} {host : Host} {a : α}
    (h : f host.directory = .ok a) : look f host = (.ok a, host) := by
  rw [look_apply, h]

theorem look_eq {f : Directory → Except ε α} {host host' : Host} {r : Except ε α}
    (h : look f host = (r, host')) : f host.directory = r ∧ host' = host := by
  rw [look_apply] at h
  exact ⟨congrArg Prod.fst h, (congrArg Prod.snd h).symm⟩

theorem change_apply (fail : FileFault → ε) (f : Directory → Except FileFault Directory)
    (host : Host) :
    change fail f host =
      match f host.directory with
      | .ok d => (.ok (), { host with directory := d })
      | .error fault => (.error (fail fault), host) := by
  rw [change, Effect.bind_of_ok (Effect.get_apply host)]
  cases f host.directory <;> rfl

theorem change_eq_ok {fail : FileFault → ε} {f : Directory → Except FileFault Directory}
    {host host' : Host} (h : change fail f host = (.ok (), host')) :
    f host.directory = .ok host'.directory ∧
      host' = { host with directory := host'.directory } := by
  rw [change_apply] at h
  split at h
  · next d changed =>
    cases h
    exact ⟨changed, rfl⟩
  · cases h

theorem change_eq_error {fail : FileFault → ε} {f : Directory → Except FileFault Directory}
    {host host' : Host} {e : ε} (h : change fail f host = (.error e, host')) :
    host' = host ∧ ∃ fault, f host.directory = .error fault ∧ e = fail fault := by
  rw [change_apply] at h
  split at h
  · cases h
  · next fault failed =>
    cases h
    exact ⟨rfl, fault, failed, rfl⟩

theorem change_of_ok {fail : FileFault → ε} {f : Directory → Except FileFault Directory}
    {host : Host} {d : Directory} (h : f host.directory = .ok d) :
    change fail f host = (.ok (), { host with directory := d }) := by
  rw [change_apply, h]

theorem mapError_of_ok (f : δ → ε) {run : HostM δ α} {host host' : Host} {a : α}
    (h : run host = (.ok a, host')) : mapError f run host = (.ok a, host') := by
  simp only [mapError, h]

theorem mapError_eq_ok {f : δ → ε} {run : HostM δ α} {host host' : Host} {a : α}
    (h : mapError f run host = (.ok a, host')) : run host = (.ok a, host') := by
  simp only [mapError] at h
  split at h
  · next b between ran =>
    cases h
    exact ran
  · cases h

theorem mapError_eq_error {f : δ → ε} {run : HostM δ α} {host host' : Host} {e : ε}
    (h : mapError f run host = (.error e, host')) : ∃ e', run host = (.error e', host') := by
  simp only [mapError] at h
  split at h
  · cases h
  · next e' between ran =>
    cases h
    exact ⟨e', ran⟩

end HostM
end ObjectVault
