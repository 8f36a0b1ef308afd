import Ucore.Theorems.Pmm
import Ucore.Theorems.Timer
import Ucore.Theorems.Mksfs
import Ucore.Theorems.Fork
import Ucore.Theorems.Sem
import Ucore.Theorems.Stdin
import Ucore.Theorems.Family
import Ucore.Theorems.SwapFifo
import Ucore.Theorems.PackedPaths
import Ucore.Theorems.Positions
import Ucore.Theorems.Kmalloc
import Ucore.Theorems.UserMem
import Ucore.Theorems.VmaCalls
import Ucore.Theorems.Malloc
import Ucore.Theorems.Args
import Ucore.Theorems.Fresh
import Ucore.Theorems.Bitmap
import Ucore.Theorems.Disk0
import Ucore.Theorems.Dirent
import Ucore.Theorems.MksfsCache
import Ucore.Theorems.Kmonitor
import Ucore.Theorems.Fresh
