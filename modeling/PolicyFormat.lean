import PolicyFormat.Beautify
import PolicyFormat.Builder.Declarations
import PolicyFormat.Builder.Log
import PolicyFormat.Builder.Parser
import PolicyFormat.Builder.ParserStore
import PolicyFormat.Command.Run
import PolicyFormat.Editor.View
import PolicyFormat.Layout.Member
import PolicyFormat.Lr.Machine
import PolicyFormat.Lr.TableFile
import PolicyFormat.Pattern.Match
import PolicyFormat.Pattern.Reader
import PolicyFormat.Main
import PolicyFormat.Policy.Outline
import PolicyFormat.Policy.Reader
import PolicyFormat.Proofs.Acceptance
import PolicyFormat.Proofs.Adoption
import PolicyFormat.Proofs.Cleanliness
import PolicyFormat.Proofs.CommentRuns
import PolicyFormat.Proofs.Conservation
import PolicyFormat.Proofs.Convergence
import PolicyFormat.Proofs.EmptyCalls
import PolicyFormat.Proofs.Evaluated
import PolicyFormat.Proofs.Extents
import PolicyFormat.Proofs.Homes
import PolicyFormat.Proofs.InPlace
import PolicyFormat.Proofs.Independence
import PolicyFormat.Proofs.KeptBlanks
import PolicyFormat.Proofs.Preservation
import PolicyFormat.Proofs.PromiseNotes
import PolicyFormat.Proofs.Refusals
import PolicyFormat.Proofs.Reports
import PolicyFormat.Proofs.Restoring
import PolicyFormat.Proofs.Safety
import PolicyFormat.Proofs.TrailingBlanks
import PolicyFormat.Scanner.Listing
import PolicyFormat.Scanner.Rebind
import PolicyFormat.Scanner.Scan
import PolicyFormat.Scanner.TableFile
import PolicyFormat.Text.Color
import PolicyFormat.Text.Quoted
