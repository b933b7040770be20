import Attaca.Map
import Attaca.Tree
import Attaca.PathBuf
import Attaca.TreeWalk
import Attaca.TreeEntry
import Attaca.TreeGraft
import Attaca.TreeIter
import Attaca.Marshal
import Attaca.TreeBuilt
import Attaca.TreeRemove
import Attaca.TreeFromIter
import Attaca.TreeEdit
import Attaca.TreeRoundTrip
import Attaca.TreeLazy
import Attaca.Leb128
import Attaca.LevelObject
import Attaca.LevelStore
import Attaca.LevelThreads
import Attaca.LevelResident
import Attaca.LevelIntegrity
