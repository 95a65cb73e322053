import LittlefsPath.Bytes
import LittlefsPath.Path
import LittlefsPath.Order
import LittlefsPath.PathBuf
import LittlefsPath.Parent
import LittlefsPath.Serde
import LittlefsPath.Ancestors
import LittlefsPath.Iter
import LittlefsPath.Invariant
import LittlefsPath.Refinement
