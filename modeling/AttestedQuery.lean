import AttestedQuery.Main
import AttestedQuery.Program.Cache
import AttestedQuery.Proofs.CallErrors
import AttestedQuery.Proofs.CandidateCount
import AttestedQuery.Proofs.ConcurrentCalls
import AttestedQuery.Proofs.EditedBatches
import AttestedQuery.Proofs.FieldCodecs
import AttestedQuery.Proofs.FoldedEqualities
import AttestedQuery.Proofs.Formulas
import AttestedQuery.Proofs.FullScan
import AttestedQuery.Proofs.GraphNames
import AttestedQuery.Proofs.Instants
import AttestedQuery.Proofs.Integrity
import AttestedQuery.Proofs.JoinOrder
import AttestedQuery.Proofs.JoinedTuples
import AttestedQuery.Proofs.MergedTrees
import AttestedQuery.Proofs.OpeningBinding
import AttestedQuery.Proofs.Optional
import AttestedQuery.Proofs.PathEnds
import AttestedQuery.Proofs.PathHygiene
import AttestedQuery.Proofs.Paths
import AttestedQuery.Proofs.SignedNumerals
import AttestedQuery.Proofs.Simplification
import AttestedQuery.Proofs.Skipping
import AttestedQuery.Proofs.StoredRecords
import AttestedQuery.Proofs.SupportedQueries
import AttestedQuery.Proofs.Suppression
import AttestedQuery.Proofs.TieBinding
import AttestedQuery.Proofs.WellFormed
import AttestedQuery.Script.Run
import AttestedQuery.Witness.Json
