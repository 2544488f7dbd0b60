import ObjectVault.Directory.Basic

namespace ObjectVault

/-- What the vault uses of the machine that it runs on. Of the `random` bytes the first `drawn` are
used up, and `now` counts the microseconds since the beginning of 1970. -/
structure Host where
  directory : Directory
  environment : Table String
  random : Nat → UInt8
  drawn : Nat
  now : Int

/-- What may change the host and may fail. A failure keeps what was changed before it. -/
abbrev HostM (ε : Type) := ExceptT ε (StateM Host)

namespace HostM
variable {ε α : Type}

def draw (count : Nat) : HostM ε Bytes := do
  let host ← get
  set { host with drawn := host.drawn + count }
  return (List.range count).map fun i => host.random (host.drawn + i)

def look (f : Directory → Except ε α) : HostM ε α := do
  match f (← get).directory with
  | .ok a => return a
  | .error e => throw e

def change (fail : FileFault → ε) (f : Directory → Except FileFault Directory) : HostM ε Unit := do
  match f (← get).directory with
  | .ok d => modify fun host => { host with directory := d }
  | .error fault => throw (fail fault)

/-- Runs with failures in the words of another layer. -/
def mapError {δ : Type} (f : δ → ε) (run : HostM δ α) : HostM ε α :=
  fun host =>
    match run host with
    | (.ok a, host) => (.ok a, host)
    | (.error e, host) => (.error (f e), host)

end HostM
end ObjectVault
