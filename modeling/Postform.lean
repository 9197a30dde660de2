import Postform.Lib.Digits
import Postform.Lib.Layout
import Postform.Lib.Leb128
import Postform.Lib.Memory
import Postform.Lib.Ownership
import Postform.Lib.Rcobs
import Postform.Lib.Records
import Postform.Lib.Ring
import Postform.Lib.Runs
import Postform.Lib.Segments
import Postform.Lib.Shuffle
import Postform.Lib.Simulation
import Postform.Lib.TryLock
import Postform.Lib.Utf8
import Postform.Decoder
import Postform.FormatString
import Postform.FormatValidator
import Postform.ValidatorGrammar
import Postform.Handlers
import Postform.SerialDecoder
import Postform.SerialStream
import Postform.SerialFrame
import Postform.WriteLeb128
import Postform.WriterLock
import Postform.Contexts
import Postform.ContextsLock
import Postform.RttTransport
import Postform.RttFifo
import Postform.RttModeSwitch
import Postform.RttProgress
import Postform.RttControlBlock
import Postform.RttHost
import Postform.RttConfigure
import Postform.RttConstruct
import Postform.RttMemory
import Postform.FileWriter
import Postform.FileMoves
import Postform.FileLog
import Postform.RecordLoop
import Postform.FileContexts
import Postform.DecoderSafety
import Postform.Rendering
import Postform.IntegerText
import Postform.Reference
import Postform.Readers
import Postform.RendererDrift
import Postform.Alignment
import Postform.Interning
import Postform.RoundTrip
import Postform.Delivery
import Postform.Levels
import Postform.RttAttach
import Postform.RttDelivery
import Postform.RttResume
import Postform.ElfFile
import Postform.Programs
import Postform.Uart
import Postform.RttTarget
import Postform.RttSession
import Postform.RttProgram
