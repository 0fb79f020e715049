import WalletKit.Adapters.Gelato
import WalletKit.Adapters.Submission

/-!
# What a posted call comes to

`GelatoRelay.submit` posts a signed call; of the response the HTTP status decides first, then what
`serde_json` reads from the body.
-/
namespace WalletKit

/-- A response to a posted call: its body, and the task id that the body holds. `statusText` is the
status as it is printed. -/
structure PostResponse where
  status : Nat
  statusText : String
  body : String
  taskId : Option TaskId

namespace GelatoRelay

/-- A network failure is transient: the request may have reached the relay. -/
def netErr (text : String) : RelayError := .rpc (.call text true)

/-- What a posted call comes to. -/
def submitted : Except String PostResponse → Except RelayError TaskId
  | .error text => .error (netErr text)
  | .ok resp =>
    match Http.classifyStatus resp.status with
    | .unauthorized => .error (.rejected ("Gelato rejected credentials: " ++ Http.clip resp.body))
    | .transient => .error (.rpc (.call
        ("Gelato " ++ resp.statusText ++ ": " ++ Http.clip resp.body) true))
    | .body =>
      match resp.taskId with
      | some task => .ok task
      | none => .error (.rejected ("Gelato: unexpected relay response: " ++ Http.clip resp.body))

/-- The relay's errors are refusals, or say that the call may have arrived. -/
theorem submitted_eq_error {post : Except String PostResponse} {e : RelayError}
    (h : submitted post = .error e) :
    (∃ message, e = .rejected message) ∨ ∃ message, e = .rpc (.call message true) := by
  unfold submitted at h
  split at h
  · cases h
    exact .inr ⟨_, rfl⟩
  · split at h
    · cases h
      exact .inl ⟨_, rfl⟩
    · cases h
      exact .inr ⟨_, rfl⟩
    · split at h
      · cases h
      · cases h
        exact .inl ⟨_, rfl⟩

end GelatoRelay

end WalletKit
