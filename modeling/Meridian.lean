import Meridian.JoinMachine
import Meridian.RoomMachine
import Meridian.AiOperations
import Meridian.ContentCheck
import Meridian.Lib.Splice
import Meridian.Lib.Overwrites
import Meridian.EditOrder
import Meridian.DividedPairs
import Meridian.KeptText
import Meridian.Lib.Layout
import Meridian.AnchoredInserts
import Meridian.ProposalMachine
import Meridian.RichEdits
import Meridian.ItemTexts
import Meridian.Replacement
import Meridian.DriftedAccept
import Meridian.ProposalStore
import Meridian.RateWindow
import Meridian.SweepMachine
import Meridian.PresenceInvariant
import Meridian.ContentRoot
import Meridian.FormattedText
import Meridian.Lib.Suffix
import Meridian.Truncation
import Meridian.ReceiveRule
import Meridian.DeadLetter
import Meridian.PresenceKeys
import Meridian.TokenMachine
import Meridian.PasswordReset
import Meridian.ShareLinkMachine
import Meridian.DocumentRequests
import Meridian.Announcements
import Meridian.Lib.Simultaneous
import Meridian.SimultaneousEdit
import Meridian.CheckOrder
import Meridian.UpdateAck
import Meridian.RichDeletes
import Meridian.EditorBlocks
import Meridian.LeafElements
import Meridian.BlockInserts
import Meridian.BlankBlocks
import Meridian.BlockSplits
import Meridian.AiBatch
import Meridian.Lib.FixedWindow
import Meridian.Throttle
import Meridian.CoincidingInserts
import Meridian.Lib.Pages
import Meridian.Pagination
import Meridian.Signup
import Meridian.Lib.Placeholders
import Meridian.MailTemplate
import Meridian.FormatPayload
import Meridian.Linearization
import Meridian.Lib.EditDistance
import Meridian.NearestText
import Meridian.Similarity
import Meridian.Convergence
import Meridian.AccountMachine
import Meridian.AiAccounting
import Meridian.AiRequests
import Meridian.RichBatch
import Meridian.FlatBatch
import Meridian.MembershipGrants
