import Pmon.ArgWords
import Pmon.BootChain
import Pmon.BootpBounds
import Pmon.BootpGateway
import Pmon.BptRemove
import Pmon.BptStrings
import Pmon.Btoa
import Pmon.ClientStackLayout
import Pmon.DebugBuffers
import Pmon.DebugMemory
import Pmon.DebugRegs
import Pmon.Disasm
import Pmon.DoCmd
import Pmon.Eeprom
import Pmon.ElfBootComplete
import Pmon.ElfBootSafe
import Pmon.ElfSyms
import Pmon.Expand
import Pmon.FlashEnvAccounts
import Pmon.FlashRomBounds
import Pmon.FlashRomProtect
import Pmon.GoPlanted
import Pmon.GoRestore
import Pmon.GoTrace
import Pmon.HistBang
import Pmon.LineEdit
import Pmon.LoadNames
import Pmon.LoadOffset
import Pmon.LoadStatus
import Pmon.MemCommands
import Pmon.Mk48t02Refused
import Pmon.PcHist
import Pmon.PciIsolation
import Pmon.PciQuery
import Pmon.PciRoms
import Pmon.Realloc
import Pmon.RecordBoot
import Pmon.RsaExpr
import Pmon.SbdTod
import Pmon.Sbrk
import Pmon.SetEnvMap
import Pmon.SetEnvPersist
import Pmon.StrPat
import Pmon.Strtol
import Pmon.SymList
import Pmon.TermioQueue
import Pmon.TftpRepeat
import Pmon.TimeDst
import Pmon.TzNames
import Pmon.WatchAccess
import Pmon.WatchMask
import Pmon.WatchRegs
import Pmon.WordSize
