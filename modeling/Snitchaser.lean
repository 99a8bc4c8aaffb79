import Snitchaser.Lib.LittleEndian
import Snitchaser.Lib.Decode
import Snitchaser.Lib.ByteMemory
import Snitchaser.Lib.Transition
import Snitchaser.Lib.Program
import Snitchaser.Lib.Hoare
import Snitchaser.Lib.Numeral
import Snitchaser.Defs
import Snitchaser.Pages
import Snitchaser.Mutex.Model
import Snitchaser.Mutex.Safety
import Snitchaser.Tls.Bithacks
import Snitchaser.Tls.Model
import Snitchaser.Tls.Slots
import Snitchaser.Stream.Compression
import Snitchaser.Stream.Bigbuffer
import Snitchaser.Stream.Logger
import Snitchaser.SyscallLog.Model
import Snitchaser.SyscallLog.Decodable
import Snitchaser.Proc.Entry
import Snitchaser.Proc.Vsscanf
import Snitchaser.Proc.Scanning
import Snitchaser.Proc.Maps
import Snitchaser.Proc.Text
import Snitchaser.Proc.Line
import Snitchaser.Checkpoint.Model
import Snitchaser.Checkpoint.Sections
import Snitchaser.Checkpoint.RoundTrip
import Snitchaser.Proc.RoundTrip
import Snitchaser.Proc.Truncated
import Snitchaser.Checkpoint.Coverage
import Snitchaser.Elf.Model
import Snitchaser.Elf.Mapping
import Snitchaser.Elf.Image
import Snitchaser.Elf.Faults
import Snitchaser.Elf.Containment
import Snitchaser.Tls.Range
import Snitchaser.Checkpoint.Contents
import Snitchaser.SyscallLog.Dispatch
import Snitchaser.SyscallLog.Nesting
import Snitchaser.Lib.Carving
import Snitchaser.Mm.Model
import Snitchaser.Mm.Buckets
import Snitchaser.Mm.Blocks
import Snitchaser.Mm.Progress
import Snitchaser.Lib.Words
import Snitchaser.Startup.Model
import Snitchaser.Startup.Rewrite
import Snitchaser.Startup.Transparent
import Snitchaser.Exception.Model
import Snitchaser.Lib.Simulation
import Snitchaser.Exception.Structured
import Snitchaser.Exception.Matching
import Snitchaser.Exception.Refinement
import Snitchaser.Lib.Fields
import Snitchaser.Tls.Popcount
import Snitchaser.Stream.Overflow
import Snitchaser.Stream.Header
import Snitchaser.Conf.Model
import Snitchaser.Conf.Options
import Snitchaser.Proc.Lookup
import Snitchaser.Startup.Areas
import Snitchaser.Elf.SelfRelocation
import Snitchaser.Xmalloc.Model
import Snitchaser.Xmalloc.Runs
import Snitchaser.Checkpoint.Guard
import Snitchaser.Lib.Extents
import Snitchaser.UserEntry.Model
import Snitchaser.UserEntry.Protection
import Snitchaser.UserEntry.Restore
import Snitchaser.Lib.BackCopy
import Snitchaser.Lzo.Model
import Snitchaser.Lzo.Safety
import Snitchaser.Lzo.Decoding
import Snitchaser.Lzo.Encoding
import Snitchaser.Lzo.RoundTrip
import Snitchaser.Lzo.Truncation
import Snitchaser.Printf.Model
import Snitchaser.Printf.Buffer
import Snitchaser.Printf.Output
import Snitchaser.Printf.Decimal
import Snitchaser.Printf.Number
import Snitchaser.Printf.Names
