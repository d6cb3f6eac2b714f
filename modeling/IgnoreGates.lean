import IgnoreGates.Logic.Maxterm
import IgnoreGates.Text.Result
import IgnoreGates.Text.Tokens
import IgnoreGates.CnfTools.Ipasir
import IgnoreGates.CnfTools.ChunkedReading
import IgnoreGates.Cadical.AuxList
import IgnoreGates.CnfTools.OccurrenceList
import IgnoreGates.CnfTools.GBDHash
import IgnoreGates.CnfTools.IndependentSet
import IgnoreGates.CnfTools.InputLiterals
import IgnoreGates.CnfTools.Normalize
import IgnoreGates.CnfTools.Patterns
import IgnoreGates.CnfTools.ReadDimacs
import IgnoreGates.CnfTools.ReadTokens
import IgnoreGates.CnfTools.ChunkedDimacs
import IgnoreGates.CnfTools.SemanticCheck
import IgnoreGates.CnfTools.Uniqueness
import IgnoreGates.CnfTools.Pruning
import IgnoreGates.Cadical.UipAux
import IgnoreGates.Cadical.FailingCore
import IgnoreGates.Cadical.Decide
import IgnoreGates.Cadical.QueueRun
import IgnoreGates.Logic.Parity
import IgnoreGates.Kissat.Ands
import IgnoreGates.Kissat.IfThenElse
import IgnoreGates.Kissat.Xors
import IgnoreGates.Kissat.Definition
import IgnoreGates.Kissat.Gates
import IgnoreGates.Kissat.Eliminate
import IgnoreGates.Kissat.Internal
import IgnoreGates.Cadical.Eliminator
import IgnoreGates.Cadical.BinaryGates
import IgnoreGates.CnfTools.Members
import IgnoreGates.CnfTools.VariableNames
import IgnoreGates.CnfTools.OccurrenceCalls
import IgnoreGates.Cadical.BestScore
import IgnoreGates.CnfTools.GateLevels
import IgnoreGates.CnfTools.PrunedProblem
import IgnoreGates.CnfTools.CNFStats
import IgnoreGates.Cadical.ClauseShape
import IgnoreGates.Cadical.BackwardClause
import IgnoreGates.Cadical.FindGates
import IgnoreGates.Cadical.EliminateRun
import IgnoreGates.CnfTools.Stamp
import IgnoreGates.CnfTools.SummaryStatistics
import IgnoreGates.Kissat.ImportedList
import IgnoreGates.Cadical.AuxMarking
import IgnoreGates.Cadical.ParseDimacs
import IgnoreGates.CnfTools.FrontEnds
import IgnoreGates.Cadical.CheckedRun
