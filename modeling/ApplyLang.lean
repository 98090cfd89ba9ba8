import ApplyLang.CommandLine
import ApplyLang.Main
import ApplyLang.Session
import ApplyLang.Proofs.Memory.Ownership
import ApplyLang.Proofs.Program.Blame
import ApplyLang.Proofs.Program.Isolation
import ApplyLang.Proofs.Program.Output
import ApplyLang.Proofs.Program.Remains
import ApplyLang.Proofs.Session.Account
import ApplyLang.Proofs.Session.Exactness
import ApplyLang.Proofs.Session.Sealing
import ApplyLang.Proofs.Source.Recognition
import ApplyLang.Proofs.Source.Rejection
import ApplyLang.Proofs.Memory.Support
import ApplyLang.Proofs.Session.LastHandle
import ApplyLang.Proofs.Memory.Territory
import ApplyLang.Proofs.Evaluation.Locality
import ApplyLang.Proofs.Session.Locality
import ApplyLang.Proofs.Program.Reporting
import ApplyLang.Proofs.Source.Outline
import ApplyLang.Proofs.Evaluation.Sequence
import ApplyLang.Proofs.Evaluation.Comparison
import ApplyLang.Proofs.Memory.InDegrees
