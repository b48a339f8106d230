import LambdaMoo.Opcode
import LambdaMoo.CodeGen
import LambdaMoo.Instr
import LambdaMoo.Accounting
import LambdaMoo.Accept
import LambdaMoo.Standing
import LambdaMoo.StandingStmt
import LambdaMoo.Labels
import LambdaMoo.Listing
import LambdaMoo.Exits
import LambdaMoo.HeaderBytes
import LambdaMoo.StackIndex
import LambdaMoo.Truncation
import LambdaMoo.Handlers
import LambdaMoo.Authority
import LambdaMoo.Operations
import LambdaMoo.WaifCycles
import LambdaMoo.Utf
import LambdaMoo.OutputRuns
import LambdaMoo.InputRuns
import LambdaMoo.LateFailures
import LambdaMoo.DbRoundTrip
import LambdaMoo.TaskQuota
import LambdaMoo.LiteralRoundTrip
import LambdaMoo.VerbNames
import LambdaMoo.Binary
import LambdaMoo.PatternCache
import LambdaMoo.RangeSet
import LambdaMoo.Renaming
import LambdaMoo.ChparentValues
import LambdaMoo.ConnectionRuns
import LambdaMoo.ParsedScopes
import LambdaMoo.DbFileRoundTrip
import LambdaMoo.Numbers
import LambdaMoo.Codec
import LambdaMoo.WaifRefresh
import LambdaMoo.WaifStamps
import LambdaMoo.SaveAndLoad
import LambdaMoo.LiteralRuns
import LambdaMoo.StringSub
import LambdaMoo.StringSearch
import LambdaMoo.StringIndex
import LambdaMoo.Widths
import LambdaMoo.Loops
import LambdaMoo.Scattering
import LambdaMoo.NetInput
import LambdaMoo.CommandVerbs
import LambdaMoo.Lookup
import LambdaMoo.Delays
import LambdaMoo.Validity
import LambdaMoo.Substitution
import LambdaMoo.Comments
import LambdaMoo.Statements
