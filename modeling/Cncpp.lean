import Cncpp.Profiles
import Cncpp.MotionType
import Cncpp.Limits
import Cncpp.Pacing
import Cncpp.Reload
import Cncpp.Sigint
import Cncpp.Continuity
import Cncpp.Numerals
import Cncpp.Comments
import Cncpp.Grammar
import Cncpp.Numbering
import Cncpp.Insertion
import Cncpp.Failure
import Cncpp.Appending
import Cncpp.Reparsing
import Cncpp.Access
import Cncpp.Provenance
import Cncpp.Clock
import Cncpp.Walking
import Cncpp.Timing
import Cncpp.Traps
import Cncpp.Iteration
import Cncpp.Renaming
import Cncpp.ArcChecks
import Cncpp.Sweeps
import Cncpp.ArcPaths
import Cncpp.MotionLaw
import Cncpp.Duration
import Cncpp.WordOrder
import Cncpp.Configuration
import Cncpp.Formats
import Cncpp.Termination
import Cncpp.Exchange
import Cncpp.Timer
import Cncpp.Replay
import Cncpp.ClosedLoop
import Cncpp.Optimality
import Cncpp.Accuracy
import Cncpp.MainLoop
import Cncpp.Statistics
import Cncpp.Lib.Csv
import Cncpp.Log
import Cncpp.Copies
import Cncpp.Bindings
import Cncpp.Diagram
