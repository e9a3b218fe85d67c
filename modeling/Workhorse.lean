import Workhorse.Admission.Theorems
import Workhorse.Checkpoint.Theorems
import Workhorse.Checkpoint.SafeInteger
import Workhorse.Cron.Resolution
import Workhorse.Cron.Wildcards
import Workhorse.Cron.Windows
import Workhorse.Dashboard.Theorems
import Workhorse.Dependency.Repairs
import Workhorse.Dependency.Theorems
import Workhorse.Enqueue.Coalescing
import Workhorse.Enqueue.Conflict
import Workhorse.Export.Theorems
import Workhorse.Group.Recount
import Workhorse.Group.Theorems
import Workhorse.Heartbeat.Theorems
import Workhorse.Prune.Safety
import Workhorse.Prune.Theorems
import Workhorse.Redrive.Theorems
import Workhorse.Registry.Theorems
import Workhorse.Retention.Theorems
import Workhorse.Schedule.Theorems
import Workhorse.Task.Completions
import Workhorse.Task.Delays
import Workhorse.Tier.Theorems
import Workhorse.Worker.LeaseWindow
import Workhorse.Worker.Ledger
