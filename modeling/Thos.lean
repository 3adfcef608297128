import Thos.Console.LineEditing
import Thos.Ext2.Backups
import Thos.Ext2.Chunked
import Thos.Ext2.Concurrent
import Thos.File.Device
import Thos.File.OnDisk
import Thos.File.Pipe
import Thos.File.Sections
import Thos.Lm.Forward
import Thos.Lm.Sample
import Thos.Lm.Train
import Thos.Memory.Models
import Thos.Memory.Views
import Thos.Pe.Resolve
import Thos.Process.Privilege
import Thos.Process.Reap
import Thos.Process.Teardown
import Thos.Process.Wait4
import Thos.Process.Worker
import Thos.Registry.Notify
import Thos.Registry.Ownership
import Thos.Registry.Threads
import Thos.Wait.Accounting
import Thos.Wait.Conservation
import Thos.Wait.Locks
import Thos.Wait.Mutant
import Thos.Wait.Semaphore
import Thos.Window.Messages
import Thos.Xhci.Rings
