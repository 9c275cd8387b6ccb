/-! # The queue of rebuilds

Rebuilds that are asked for wait in a queue with one slot. A request that finds the slot taken adds
nothing: the rebuild that waits will start after it. The worker takes the request out before it
starts a rebuild.
-/

namespace ThemeTemplates

set_option autoImplicit false

structure Queue where
  pending : Bool
  deriving DecidableEq, Repr

namespace Queue

def empty : Queue := ⟨false⟩

def request (_ : Queue) : Queue := ⟨true⟩

/-- The queue after the worker has taken a request, if one waits. -/
def take? (q : Queue) : Option Queue := if q.pending then some ⟨false⟩ else none

@[simp] theorem take?_request (q : Queue) : q.request.take? = some empty := rfl

end Queue

end ThemeTemplates
