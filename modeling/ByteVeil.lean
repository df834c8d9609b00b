import ByteVeil.IR.Effects
import ByteVeil.IR.SelfCheck
import ByteVeil.IR.Versions
import ByteVeil.Lua51.ConstantMeaning
import ByteVeil.Lua51.DispatcherRuns
import ByteVeil.Lua51.CfgExport
import ByteVeil.Lua51.ChunkEncoding
import ByteVeil.Lua51.Conditions
import ByteVeil.Lua51.EmitRange
import ByteVeil.Lua51.JsonText
import ByteVeil.Lua51.LoopCount
import ByteVeil.Lua51.Structured
import ByteVeil.Luau.CodeRanges
import ByteVeil.Luau.Lifter
import ByteVeil.MoonSec.Alphabet
import ByteVeil.RegisterDecompile.CodeReads
import ByteVeil.RegisterDecompile.FunctionRuns
import ByteVeil.RegisterDecompile.Strings
import ByteVeil.Restructure.Plan
import ByteVeil.Unpack.Payloads
