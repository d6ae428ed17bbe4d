import BareLine.Codec.EolLines
import BareLine.Completion.Openers
import BareLine.Diff.Alignment
import BareLine.Document.LinkedGroups
import BareLine.Document.Rejection
import BareLine.Extensions.Frames
import BareLine.Extensions.Guarantees
import BareLine.GroupRecovery.Guarantees
import BareLine.JsonTools.Errors
import BareLine.JsonTools.Tree
import BareLine.Macros.Boundaries
import BareLine.Macros.Faithful
import BareLine.Macros.Files
import BareLine.Power.Aligned
import BareLine.Power.ColumnEdits
import BareLine.Power.Independence
import BareLine.Power.Tabs
import BareLine.Recovery.Compose
import BareLine.Recovery.Durability
import BareLine.Replace.Guarantees
import BareLine.SaveTransaction.CleanupGuarantees
import BareLine.SaveTransaction.SaveGuarantees
import BareLine.Search.Exact
import BareLine.Search.StreamGuarantees
import BareLine.Service.Drain
import BareLine.Session.Named
import BareLine.Syntax.UdlAgreement
import BareLine.Tree.Balance
import BareLine.Tree.Lines
import BareLine.Window.Viewport
