import ProcWatch.Verification.Names.Separation
import ProcWatch.Verification.Lines.RoundTrip
import ProcWatch.Verification.Agent.Replay
import ProcWatch.Verification.Http.Acknowledged
import ProcWatch.Verification.Http.Reuse
import ProcWatch.Verification.Store.Runs
import ProcWatch.Verification.Store.SpillFile
import ProcWatch.Verification.Otlp.Unknown
import ProcWatch.Verification.Otlp.Strings
import ProcWatch.Verification.Agent.Requests
import ProcWatch.Verification.Database.Rows
import ProcWatch.Verification.Otlp.Malformed
import ProcWatch.Verification.Otlp.Memory
import ProcWatch.Verification.Otlp.Safety
import ProcWatch.Verification.Otlp.Truncation
import ProcWatch.Verification.Agent.Room
import ProcWatch.Verification.Otlp.Texts
import ProcWatch.Verification.Otlp.Values
import ProcWatch.Verification.Http.Framing
import ProcWatch.Verification.Http.Memory
import ProcWatch.Verification.Http.Inflate
import ProcWatch.Verification.Proc.Stat
import ProcWatch.Verification.Proc.Totals
import ProcWatch.Verification.Proc.Children
import ProcWatch.Verification.Proc.Tree
import ProcWatch.Verification.Proc.Deltas
import ProcWatch.Verification.Inject.Keys
import ProcWatch.Verification.Inject.Exec
import ProcWatch.Verification.Inject.Update
import ProcWatch.Verification.Inject.InEffect
import ProcWatch.Verification.Http.Endpoint
import ProcWatch.Verification.Http.Slots
import ProcWatch.Verification.Otlp.Quantities
import ProcWatch.Verification.Agent.Conversions
import ProcWatch.Verification.Agent.Ensured
import ProcWatch.Verification.Agent.Service
import ProcWatch.Verification.Main.Ends
import ProcWatch.Verification.Main.Accounts
import ProcWatch.Verification.Agent.Accounts
import ProcWatch.Verification.Agent.Hosted
import ProcWatch.Verification.Inject.Lineage
