import LittleLoader.Block.Canonical
import LittleLoader.Block.Capacity
import LittleLoader.Block.Corruption
import LittleLoader.Block.Layout
import LittleLoader.Block.Rejection
import LittleLoader.Boot.Bootcount
import LittleLoader.Boot.Heap
import LittleLoader.Dtb.Query
import LittleLoader.Dtb.Untrusted
import LittleLoader.Env.PairArray
import LittleLoader.Env.Unset
import LittleLoader.Memory.Move
import LittleLoader.Strings.Numeral
import LittleLoader.Strings.Order
import LittleLoader.Virtio.Ownership
