import AzureSpider.Kern.UioLaws
import AzureSpider.Dev.LhdOwnership
import AzureSpider.Dev.ConsoleInput
import AzureSpider.Dev.EmufsCounts
import AzureSpider.Dev.Lamebus
import AzureSpider.Sfs.Mksfs
import AzureSpider.Sfs.Sync
import AzureSpider.Sfs.NameMap
import AzureSpider.Sfs.Discard
import AzureSpider.Sfs.Sizes
import AzureSpider.Sfs.Requests
import AzureSpider.Sfs.Coverage
import AzureSpider.Vfs.DevicePath
import AzureSpider.Userprog.ElfImage
import AzureSpider.Kheap.Safety
import AzureSpider.Thread.Semaphore
import AzureSpider.Thread.Lock
import AzureSpider.Thread.Reserve
import AzureSpider.Trading.ClosePrice
import AzureSpider.Trading.DayParser
import AzureSpider.Trading.Solvency
import AzureSpider.Trading.Entitlement
import AzureSpider.Strategy.Weights
import AzureSpider.Strategy.Settlement
import AzureSpider.Signal.ExponentialAverage
import AzureSpider.Vfs.RegularNames
import AzureSpider.Vm.Fault
import AzureSpider.Userprog.CopyInOut
import AzureSpider.Dev.LhdSectors
import AzureSpider.Dev.Pseudorand
import AzureSpider.Kern.BitmapRuns
import AzureSpider.Thread.Wakeup
import AzureSpider.Libc.Memmove
import AzureSpider.Libc.Snprintf
import AzureSpider.Libc.Atoi
