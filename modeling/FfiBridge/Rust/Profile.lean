import FfiBridge.Machine.Memory

/-! # Build profiles (`Cargo.toml`) -/
namespace FfiBridge

/-- The profiles of the crate. -/
inductive Profile where
  | dev
  | release
  | test
  | bench
  deriving DecidableEq, Repr

/-- `panic = "abort"` stands in `[profile.release]` only, and Cargo ignores the setting for
tests and benchmarks. -/
def Profile.panicStrategy : Profile → PanicStrategy
  | release => .abort
  | _ => .unwind

/-- The crate as a profile compiles it. -/
def Runtime.under (rt : Runtime) (profile : Profile) : Runtime :=
  { rt with strategy := profile.panicStrategy }

theorem Profile.unwinds_iff {profile : Profile} :
    profile.panicStrategy = .unwind ↔ profile ≠ .release := by
  cases profile <;> simp [panicStrategy]

end FfiBridge
