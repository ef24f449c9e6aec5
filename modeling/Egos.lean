import Egos.Disk.Checkdisk
import Egos.Disk.Combinedisk
import Egos.Disk.Durability
import Egos.Disk.Faults
import Egos.Disk.Filedisk
import Egos.Disk.Partdisk
import Egos.Disk.Raid0disk
import Egos.Disk.Raid1disk
import Egos.Disk.Rejection
import Egos.Disk.Resizing
import Egos.Disk.Resurrection
import Egos.Disk.Treedisk.Checked
import Egos.Disk.Treedisk.Limits
import Egos.Disk.Treedisk.OutOfSpace
import Egos.Disk.Unixdisk.Create
import Egos.Disk.Unixdisk.Agreement
import Egos.Disk.WriteThrough
import Egos.Exec.RoundTrip
import Egos.File.Blocksvr
import Egos.File.Directory
import Egos.File.Image
import Egos.File.Ranges
import Egos.File.Limits
import Egos.File.Recycling
import Egos.File.Truncation
import Egos.File.Server
import Egos.Grass.Reuse
import Egos.Grass.Console
import Egos.Grass.Delivery
import Egos.Grass.Fairness
import Egos.Grass.Gatesvr
import Egos.Grass.Ramfilesvr
import Egos.Grass.Rpc
import Egos.Grass.Segments
import Egos.Grass.Serving
import Egos.Grass.Ttysvr
import Egos.File.Client
import Egos.File.Dirsvr
import Egos.Lib.Holes
import Egos.File.Lookups
import Egos.File.Creation
import Egos.File.Orderly
import Egos.Grass.Survival
import Egos.Libc.Digest
import Egos.Libc.Fifo
import Egos.Libc.Maps
import Egos.Libc.Memmove
import Egos.Libc.Memset
import Egos.Libc.Printf
import Egos.Libc.Qsort
import Egos.Libc.Strcmp
import Egos.Libc.Strtol
import Egos.Libc.Tlsf.Contract
import Egos.User.Authentication
import Egos.User.Cursor
import Egos.User.Descriptors
import Egos.User.Editor
import Egos.User.Spawn
