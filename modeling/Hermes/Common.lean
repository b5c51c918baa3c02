import Mathlib.Data.List.Basic

/-!
# Byte strings and statuses

The data every layer of the library passes around: buffers of bytes, and the
`hermes_status_t` of `hermes/common/errors.h`.

A function of the source that reports a status and writes its results through
pointers is here a function into `Hermes.Reply`: the results when the status is
`HM_SUCCESS`, and otherwise a status that is not. The two cannot disagree, since a
`Hermes.Failure` is by construction not `HM_SUCCESS`.
-/

namespace Hermes

/-- The content of a buffer. An empty one stands for both `NULL` and a length of `0`,
which the source never tells apart. -/
abbrev Bytes := List UInt8

/-- `hermes_status_t`. -/
abbrev HermesStatus := UInt32

/-- `HM_SUCCESS` -/
def hmSuccess : HermesStatus := 0

/-- `HM_ERR` -/
def hmErr : HermesStatus := 0x000f0000

/-- `HM_FAIL` -/
def hmFail : HermesStatus := hmErr ||| 1

/-- `HM_INVALID_PARAMETER` -/
def hmInvalidParameter : HermesStatus := hmErr ||| 2

/-- `HM_BUFFER_TOO_SMALL` -/
def hmBufferTooSmall : HermesStatus := hmErr ||| 3

/-- `HM_BAD_ALLOC` -/
def hmBadAlloc : HermesStatus := hmErr ||| 4

/-- A status that reports a failure. -/
abbrev Failure := {s : HermesStatus // s ≠ hmSuccess}

/-- `HM_FAIL`, as a failure. -/
def Failure.fail : Failure := ⟨hmFail, by decide⟩

/-- `HM_INVALID_PARAMETER`, as a failure. -/
def Failure.invalidParameter : Failure := ⟨hmInvalidParameter, by decide⟩

/-- What a function gives back: its results together with `HM_SUCCESS`, or a failure. -/
abbrev Reply (α : Type) := Except Failure α

/-- The status of a reply. -/
def Reply.status {α : Type} : Reply α → HermesStatus
  | .ok _ => hmSuccess
  | .error s => s

@[simp] theorem Reply.status_ok {α : Type} (a : α) : Reply.status (.ok a : Reply α) = hmSuccess :=
  rfl

end Hermes
