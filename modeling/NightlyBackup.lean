import NightlyBackup.Main
import NightlyBackup.Plan
import NightlyBackup.Proofs.Beginning
import NightlyBackup.Proofs.Preparing
import NightlyBackup.Proofs.Conversing
import NightlyBackup.Proofs.Exchanging
import NightlyBackup.Proofs.Closing
import NightlyBackup.Proofs.Turns
import NightlyBackup.Proofs.Accounts
import NightlyBackup.Proofs.Scheduling
import NightlyBackup.Proofs.Changes
import NightlyBackup.Proofs.Yielding
import NightlyBackup.Proofs.Refusing
import NightlyBackup.Proofs.Reinstating
import NightlyBackup.Proofs.Fitting
import NightlyBackup.Proofs.Balancing
import NightlyBackup.Proofs.Rounds
import NightlyBackup.Proofs.WholeNight
import NightlyBackup.Proofs.Calls
import NightlyBackup.Proofs.Ceilings
import NightlyBackup.Proofs.Isolation
import NightlyBackup.Proofs.Usable
import NightlyBackup.Proofs.Ranking
import NightlyBackup.Proofs.Leeway
import NightlyBackup.Proofs.Resolving
import NightlyBackup.Proofs.Fulls
import NightlyBackup.Proofs.Promoting
import NightlyBackup.Proofs.Ending
import NightlyBackup.Proofs.Splitting
import NightlyBackup.Proofs.Judging
import NightlyBackup.Proofs.Phases
import NightlyBackup.Proofs.Auditing
import NightlyBackup.Proofs.Incrementals
import NightlyBackup.Proofs.Restoring
import NightlyBackup.Proofs.Quoting
import NightlyBackup.Proofs.ReplyLines
import NightlyBackup.Proofs.Answers
import NightlyBackup.Proofs.Printing
import NightlyBackup.Proofs.Writing
import NightlyBackup.Proofs.TakingApart
import NightlyBackup.Proofs.Encoding
import NightlyBackup.Proofs.Framing
import NightlyBackup.Proofs.Rearranging
import NightlyBackup.Proofs.Economy
import NightlyBackup.Proofs.Sifting
import NightlyBackup.Proofs.GivingUp
import NightlyBackup.Proofs.Undoing
import NightlyBackup.Proofs.Requesting
import NightlyBackup.Proofs.Arrivals
import NightlyBackup.Proofs.Recalling
import NightlyBackup.Proofs.Hills
import NightlyBackup.Proofs.Expecting
import NightlyBackup.Proofs.Listing
import NightlyBackup.Proofs.Announcing
import NightlyBackup.Proofs.Bounding
import NightlyBackup.Proofs.Configuring
import NightlyBackup.Proofs.FallingDue
import NightlyBackup.Proofs.Raising
import NightlyBackup.Proofs.Totalling
import NightlyBackup.Proofs.Tokenizing
