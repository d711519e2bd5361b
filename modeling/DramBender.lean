import DramBender.Instruction
import DramBender.Encoding
import DramBender.Decoding
import DramBender.Lib.Insert
import DramBender.Lib.MapFold
import DramBender.Lib.Segment
import DramBender.Program
import DramBender.Analysis
import DramBender.Postprocess
import DramBender.Link
import DramBender.Builder
import DramBender.Linker
import DramBender.Lib.Files
import DramBender.SaveLoad
import DramBender.Isa
import DramBender.ControlFlow
import DramBender.Lib.Transition
import DramBender.Platform
import DramBender.Listing
import DramBender.Generators
import DramBender.Board
import DramBender.Lib.Monitor
import DramBender.Lib.Paths
import DramBender.BankProtocol
import DramBender.Queues
import DramBender.Lib.Straight
import DramBender.StraightWords
import DramBender.RowPrograms
import DramBender.Lib.Blocks
import DramBender.Lib.Buffer
import DramBender.Bitflips
import DramBender.Alignment
import DramBender.RowRanges
import DramBender.RangeWrites
import DramBender.Timing
import DramBender.Activations
import DramBender.Hammer
import DramBender.OpenTimes
import DramBender.SendBuffer
import DramBender.Spacing
import DramBender.Nominal
import DramBender.Announcements
import DramBender.Lib.Flip
import DramBender.Rows
import DramBender.SetIndices
import DramBender.BerSweep
import DramBender.ReadbackSizes
import DramBender.Packing
import DramBender.Commands
import DramBender.LoadHazard
import DramBender.Agreement
import DramBender.Labels
import DramBender.HammerPattern
import DramBender.PatternTimes
import DramBender.Lib.Strings
import DramBender.TimingTasks
import DramBender.ViolationTimes
import DramBender.Lib.Track
import DramBender.Device
import DramBender.Requests
import DramBender.Sessions
import DramBender.Lib.Compose
import DramBender.Composition
import DramBender.RegisterDump
import DramBender.GeneratedReads
import DramBender.Lib.Dialogue
import DramBender.HammerScripts
import DramBender.Retention
import DramBender.Lib.News
import DramBender.Debugger
import DramBender.Images
import DramBender.Lib.Stops
import DramBender.Disassembly
