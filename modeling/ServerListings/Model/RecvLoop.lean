import ServerListings.Lib.Traffic

/-!
# Receiving until nothing is there (listings 9-3 and 9-8)

The loop around `recv` that `et` has and the server of listing 9-8 has for TCP. When the client
has closed the connection, the descriptor is closed but the loop is not left: the next `recv` fails
as the descriptor is not open any more, it is closed a second time, which fails too, and then the
loop ends.
-/

set_option autoImplicit false

namespace ServerListings.Model

open Lib.Readiness

/-- The loop, with what is done for the bytes that come. The value beside a result of `recv` is of
a call that is made for these bytes. -/
def recvLoop {β ε : Type} (fd : Int) (got : List UInt8 → β → List ε) :
    List (Recv × β) → Table Int → Table Int × List ε
  | [], T => (T, [])
  | (.data chunk, b) :: rs, T =>
    let r := recvLoop fd got rs (T.receive fd chunk.length)
    (r.1, got chunk b ++ r.2)
  | (.again, _) :: _, T => (T, [])
  | (.ended, _) :: rs, T => recvLoop fd got rs (T.remove fd)
  | (.failed, _) :: _, T => (T.remove fd, [])

/-- The results of the `recv` calls of the loop. -/
def Drains (limit : Nat) (fd : Int) : List Recv → Table Int → Prop
  | [], _ => False
  | .data chunk :: rs, T =>
    T.Returns fd limit (.data chunk) ∧ Drains limit fd rs (T.receive fd chunk.length)
  | .again :: rs, T => T.Returns fd limit .again ∧ rs = []
  | .ended :: rs, T => T.Returns fd limit .ended ∧ Drains limit fd rs (T.remove fd)
  | .failed :: rs, T => T.Returns fd limit .failed ∧ rs = []

/-- An open connection fails. -/
def fails : List Recv → Bool
  | .data _ :: rs => fails rs
  | .failed :: _ => true
  | _ => false

def decidableDrains (limit : Nat) (fd : Int) : (rs : List Recv) → (T : Table Int) →
    Decidable (Drains limit fd rs T)
  | [], _ => .isFalse id
  | .data chunk :: rs, T =>
    have := decidableDrains limit fd rs (T.receive fd chunk.length)
    inferInstanceAs (Decidable (_ ∧ _))
  | .again :: _, _ => inferInstanceAs (Decidable (_ ∧ _))
  | .ended :: rs, T =>
    have := decidableDrains limit fd rs (T.remove fd)
    inferInstanceAs (Decidable (_ ∧ _))
  | .failed :: _, _ => inferInstanceAs (Decidable (_ ∧ _))

instance (limit : Nat) (fd : Int) (rs : List Recv) (T : Table Int) :
    Decidable (Drains limit fd rs T) := decidableDrains limit fd rs T

end ServerListings.Model
