import PhpGraft.Editor.InPlace
import PhpGraft.Main
import PhpGraft.Proofs.Agreement
import PhpGraft.Proofs.Balance
import PhpGraft.Proofs.BatchRun
import PhpGraft.Proofs.Batching
import PhpGraft.Proofs.ByName
import PhpGraft.Proofs.Brackets
import PhpGraft.Proofs.Coverage
import PhpGraft.Proofs.DiskLaws
import PhpGraft.Proofs.Excerpt
import PhpGraft.Proofs.Exchange
import PhpGraft.Proofs.Foremost
import PhpGraft.Proofs.ImportLines
import PhpGraft.Proofs.Indentation
import PhpGraft.Proofs.Interleaving
import PhpGraft.Proofs.Joining
import PhpGraft.Proofs.LineEnding
import PhpGraft.Proofs.LocalNames
import PhpGraft.Proofs.LookAhead
import PhpGraft.Proofs.NewFile
import PhpGraft.Proofs.Omission
import PhpGraft.Proofs.Progress
import PhpGraft.Proofs.Readback
import PhpGraft.Proofs.Remainder
import PhpGraft.Proofs.Reprinting
import PhpGraft.Proofs.Rereading
import PhpGraft.Proofs.Respacing
import PhpGraft.Proofs.Splice
import PhpGraft.Proofs.Territory
import PhpGraft.Proofs.Tiling
import PhpGraft.Proofs.Window
import PhpGraft.Storage.Disk
import PhpGraft.Proofs.TagLines
import PhpGraft.Proofs.Border
import PhpGraft.Proofs.Options
import PhpGraft.Proofs.CloseTag
import PhpGraft.Proofs.Autoload
import PhpGraft.Proofs.Containment
import PhpGraft.Proofs.Mention
import PhpGraft.Proofs.Replacement
import PhpGraft.Proofs.PrintedNames
import PhpGraft.Proofs.EditScript
import PhpGraft.Proofs.Verdict
import PhpGraft.Proofs.PathNames
import PhpGraft.Proofs.Discovery
import PhpGraft.Proofs.Repetition
