import TapeLang.Main
import TapeLang.Proofs.AnyText
import TapeLang.Proofs.ScriptMachine
import TapeLang.Proofs.WalkMachine
import TapeLang.TextRun
import TapeLang.Proofs.Blame
import TapeLang.Proofs.Inert
import TapeLang.Proofs.Intake
import TapeLang.Proofs.InputRead
import TapeLang.Proofs.Nesting
import TapeLang.Proofs.WalkDepth
import TapeLang.Proofs.OnTape
import TapeLang.Proofs.Flushing
import TapeLang.Proofs.TapeMemory
import TapeLang.Proofs.Rot13
import TapeLang.Proofs.TextBytes
import TapeLang.Proofs.Echo
import TapeLang.Proofs.WalkReturns
import TapeLang.Proofs.Landing
import TapeLang.Proofs.Rerun
import TapeLang.Proofs.Capacity
import TapeLang.Proofs.BlockLayout
import TapeLang.Proofs.BlockMeaning
import TapeLang.Proofs.SharedReader
import TapeLang.Proofs.ReportPlace
import TapeLang.Proofs.ProgramSource
import TapeLang.Proofs.Numerals
import TapeLang.Proofs.SkipWalk
