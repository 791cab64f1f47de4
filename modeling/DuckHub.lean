import DuckHub.Theorems.ListInvariant
import DuckHub.Theorems.CourseCodec
import DuckHub.Theorems.Undo
import DuckHub.Theorems.Refinement
import DuckHub.Theorems.Response
import DuckHub.Theorems.Reachability
import DuckHub.Theorems.Submissions
import DuckHub.Theorems.Typing
import DuckHub.Theorems.Removal
import DuckHub.Theorems.EditedTable
import DuckHub.Theorems.Alerts
