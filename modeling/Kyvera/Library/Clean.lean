import Kyvera.Library.Prog

/-!
# Clean failures

A program fails cleanly in a state when no execution that starts there and does not succeed has
changed anything, a panic included.  Tests may stop such a program at any point in front of its
first write; behind it, nothing may fail any more.
-/

namespace Effect.Prog

variable {σ ε α β : Type}

section Clean

variable {p : Prog σ ε α} {g : α → Prog σ ε β} {s m : σ} {a : α}

end Clean

end Effect.Prog
