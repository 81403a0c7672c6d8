import CangjieCompiler.Foundations.FixedWidth
import CangjieCompiler.Foundations.FixedWidthBits
import CangjieCompiler.Foundations.IntervalArithmetic
import CangjieCompiler.Foundations.OrderedMap
import CangjieCompiler.CHIR.Analysis.SInt
import CangjieCompiler.CHIR.Analysis.SIntArithmetic
import CangjieCompiler.CHIR.Analysis.ConstantRange
import CangjieCompiler.CHIR.Analysis.ConstantRange.Membership
import CangjieCompiler.CHIR.Analysis.ConstantRange.SetOperations
import CangjieCompiler.CHIR.Analysis.ConstantRange.Arithmetic
import CangjieCompiler.CHIR.Analysis.ConstantRange.Division
import CangjieCompiler.CHIR.Analysis.ConstantRange.DivisionEdge
import CangjieCompiler.CHIR.Analysis.ConstantRange.Remainder
import CangjieCompiler.CHIR.Analysis.NumericConversion
import CangjieCompiler.CHIR.Analysis.BoolDomain
import CangjieCompiler.CHIR.Analysis.SIntDomain
import CangjieCompiler.CHIR.Analysis.SIntDomain.Meaning
import CangjieCompiler.CHIR.Analysis.SIntDomain.ArithmeticSound
import CangjieCompiler.CHIR.Analysis.ConstantRange.Widths
import CangjieCompiler.CHIR.Analysis.SIntDomain.ComparisonSound
import CangjieCompiler.CHIR.Analysis.SIntDomain.ConversionSound
import CangjieCompiler.CHIR.Analysis.SIntDomain.JoinSound
import CangjieCompiler.CHIR.Analysis.ValueRangeAnalysis
import CangjieCompiler.CHIR.Analysis.ValueRangeAnalysis.CastChains
import CangjieCompiler.Foundations.ByteCodec
import CangjieCompiler.Lex.Token
import CangjieCompiler.Macro.TokenSerialization
import CangjieCompiler.CHIR.Interpreter.BCHIR
import CangjieCompiler.CHIR.Interpreter.BCHIRLinker
import CangjieCompiler.Macro.TokenRoundTrip
import CangjieCompiler.CHIR.Interpreter.Instructions
import CangjieCompiler.CHIR.Interpreter.LinkerGrowth
import CangjieCompiler.CHIR.Interpreter.LinkedImage
import CangjieCompiler.CHIR.Interpreter.LinkedPackages
import CangjieCompiler.CHIR.Interpreter.LinkedRun
import CangjieCompiler.CHIR.Interpreter.JumpRelocation
import CangjieCompiler.CHIR.Interpreter.LinkOrder
import CangjieCompiler.CHIR.Interpreter.ClassTable
import CangjieCompiler.CHIR.Interpreter.LinkedClasses
import CangjieCompiler.CHIR.Interpreter.ClassLinking
import CangjieCompiler.CHIR.Interpreter.ClassCompleteness
import CangjieCompiler.Foundations.ChangeLog
import CangjieCompiler.Utils.PartiallyPersistent
import CangjieCompiler.Utils.PSetRollback
import CangjieCompiler.Foundations.LookAhead
import CangjieCompiler.Lex.Utf8
import CangjieCompiler.Lex.LexerImpl
import CangjieCompiler.Lex.LookAheadInvisible
import CangjieCompiler.Lex.ScanningState
import CangjieCompiler.Lex.Backtracking
import CangjieCompiler.Foundations.StateInvariant
import CangjieCompiler.Foundations.HashConsing
import CangjieCompiler.Sema.Ty
import CangjieCompiler.Sema.TypeManager
import CangjieCompiler.Sema.PatternUsefulness
import CangjieCompiler.Sema.PatternUsefulness.FindWitnesses
import CangjieCompiler.Sema.PatternUsefulness.Typing
import CangjieCompiler.Sema.PatternUsefulness.SearchRules
import CangjieCompiler.Foundations.EventualResult
import CangjieCompiler.Foundations.FrontierSearch
import CangjieCompiler.Foundations.LowerBound
import CangjieCompiler.Foundations.TreePlaces
import CangjieCompiler.Sema.TypeTree
import CangjieCompiler.Sema.ResolvedSubstitution
import CangjieCompiler.Sema.UpperBounds
import CangjieCompiler.CHIR.Interpreter.InterpreterValue
import CangjieCompiler.CHIR.Interpreter.IntegerOps
import CangjieCompiler.CHIR.Interpreter.IntegerEvaluation
import CangjieCompiler.CHIR.Interpreter.AggregatePlaces
import CangjieCompiler.CHIR.Interpreter.StoreLaw
import CangjieCompiler.CHIR.Interpreter.VArrayIndices
import CangjieCompiler.CHIR.Interpreter.CHIR2BCHIR
import CangjieCompiler.CHIR.Interpreter.SwitchDispatch
import CangjieCompiler.Sema.TypeInterning
import CangjieCompiler.Foundations.Worklist
import CangjieCompiler.CHIR.Analysis.ValueDomain
import CangjieCompiler.CHIR.Analysis.StatePool
import CangjieCompiler.CHIR.Analysis.ActiveStatePool
import CangjieCompiler.CHIR.Analysis.ActiveStatePool.LinkedStatePool
import CangjieCompiler.CHIR.Analysis.ActiveStatePool.NodeLists
import CangjieCompiler.CHIR.Analysis.ActiveStatePool.PoolRuns
import CangjieCompiler.CHIR.Analysis.ActiveStatePool.JoinSoundness
import CangjieCompiler.CHIR.Analysis.ValueAnalysis
import CangjieCompiler.CHIR.Analysis.StateJoin
import CangjieCompiler.CHIR.Analysis.Engine
import CangjieCompiler.CHIR.Analysis.PostFixpoint
import CangjieCompiler.Foundations.OrderedSet
import CangjieCompiler.Foundations.Reachability
import CangjieCompiler.Modules.DependencyGraph
import CangjieCompiler.Foundations.SortedMerge
import CangjieCompiler.Foundations.TreeDiff
import CangjieCompiler.IncrementalCompilation.ASTDiff
import CangjieCompiler.IncrementalCompilation.MemberDiff
import CangjieCompiler.IncrementalCompilation.DiffExactness
import CangjieCompiler.IncrementalCompilation.DiffReport
import CangjieCompiler.Foundations.Tarjan
import CangjieCompiler.Foundations.TarjanCorrect
import CangjieCompiler.Modules.PackageManager
import CangjieCompiler.Modules.BuildOrder
import CangjieCompiler.Sema.EliminateRecursiveTypes.Graph
import CangjieCompiler.Sema.EliminateRecursiveTypes.GraphOperations
import CangjieCompiler.Sema.EliminateRecursiveTypes.Components
import CangjieCompiler.Sema.EliminateRecursiveTypes.Boxing
import CangjieCompiler.Sema.EliminateRecursiveTypes.Elimination
import CangjieCompiler.Sema.EliminateRecursiveTypes.Completeness
import CangjieCompiler.Foundations.StableSort
import CangjieCompiler.Utils.Unicode.NormalForm
import CangjieCompiler.Utils.Unicode.CanonicalEquivalence
import CangjieCompiler.Foundations.Iterator
import CangjieCompiler.Utils.Unicode.UnicodeNFC
import CangjieCompiler.Utils.Unicode.NFCCorrect
import CangjieCompiler.Foundations.WeakSimulation
import CangjieCompiler.CHIR.IR.BlockGroup
import CangjieCompiler.CHIR.Optimization.MergeBlocks
import CangjieCompiler.CHIR.IR.BlockEdges
import CangjieCompiler.CHIR.Optimization.MergeBlocks.Rules
import CangjieCompiler.CHIR.IR.Execution
import CangjieCompiler.CHIR.Optimization.MergeBlocks.Refinement
import CangjieCompiler.CHIR.Optimization.MergeBlocks.Redirection
import CangjieCompiler.CHIR.Optimization.MergeBlocks.Copies
import CangjieCompiler.CHIR.Optimization.MergeBlocks.Progress
import CangjieCompiler.CHIR.Optimization.MergeBlocks.Loop
import CangjieCompiler.CHIR.Analysis.ConstantRange.Asserted
import CangjieCompiler.CHIR.Analysis.ConstantRange.WidthChanges
import CangjieCompiler.CHIR.Checker.OverflowChecking
import CangjieCompiler.CHIR.Checker.OverflowExactness
import CangjieCompiler.CHIR.Checker.ExpOverflow
import CangjieCompiler.CHIR.Analysis.ConstAnalysis
import CangjieCompiler.CHIR.Analysis.ConstAnalysis.LogicalFolding
import CangjieCompiler.CHIR.Analysis.ConstAnalysis.BitwiseFolding
import CangjieCompiler.CHIR.Analysis.ConstAnalysis.ArithmeticFolding
import CangjieCompiler.CHIR.Optimization.ConstPropagation
import CangjieCompiler.CHIR.Analysis.SIntDomain.ConversionAsserted
import CangjieCompiler.Foundations.PartialLoop
import CangjieCompiler.Foundations.PrefixTree
import CangjieCompiler.AST.Position
import CangjieCompiler.AST.Searcher
import CangjieCompiler.Utils.StdUtils
import CangjieCompiler.AST.IntLiteral
import CangjieCompiler.Foundations.LinkedChain
import CangjieCompiler.Macro.MacroCall
import CangjieCompiler.Macro.MacroMsgFormat
import CangjieCompiler.Macro.MacroEvalMsgSerializer
import CangjieCompiler.Macro.AbsentFields
import CangjieCompiler.Macro.MessageRoundTrip
import CangjieCompiler.Macro.ResultRoundTrip
import CangjieCompiler.IncrementalCompilation.ASTCacheCalculator
import CangjieCompiler.IncrementalCompilation.CachedDataSerialization
import CangjieCompiler.IncrementalCompilation.OrderDiff
import CangjieCompiler.IncrementalCompilation.CacheWalk
import CangjieCompiler.IncrementalCompilation.TopLevelWalk
import CangjieCompiler.IncrementalCompilation.PackageWalk
import CangjieCompiler.IncrementalCompilation.WalkedPackage
import CangjieCompiler.IncrementalCompilation.LoadedCache
import CangjieCompiler.IncrementalCompilation.UnchangedDiff
import CangjieCompiler.IncrementalCompilation.UnchangedPackage
import CangjieCompiler.Sema.PatternUsefulness.Termination
import CangjieCompiler.Sema.PatternUsefulness.Meaning
import CangjieCompiler.Sema.PatternUsefulness.PlainPatterns
import CangjieCompiler.Sema.PatternUsefulness.Coverage
import CangjieCompiler.Sema.PatternUsefulness.UsefulWitnesses
import CangjieCompiler.Sema.TyInstantiator
import CangjieCompiler.Sema.InstantiationComplete
import CangjieCompiler.Lex.Utf8Decoding
import CangjieCompiler.Lex.LineOffsets
import CangjieCompiler.Lex.ScannedLines
import CangjieCompiler.Foundations.SpellingTable
import CangjieCompiler.Lex.MaximalMunch
import CangjieCompiler.Lex.SymbolScanner
import CangjieCompiler.Lex.SplitAgreement
import CangjieCompiler.Lex.SplitSwitches
import CangjieCompiler.Foundations.BoundedReach
import CangjieCompiler.Foundations.BinaryFormat
import CangjieCompiler.Foundations.DrainLoop
import CangjieCompiler.Modules.DirectDependencies
import CangjieCompiler.Utils.FloatFormat
import CangjieCompiler.Sema.MultiTypeSubst
import CangjieCompiler.Sema.SubstWithin
import CangjieCompiler.Sema.ApplySubstPack
import CangjieCompiler.Sema.UnusedMappings
import CangjieCompiler.CHIR.IR.ExprKind
import CangjieCompiler.CHIR.Optimization.UselessExpr
import CangjieCompiler.CHIR.Analysis.SIntRepresentation
import CangjieCompiler.IncrementalCompilation.OrderChanges
import CangjieCompiler.Parse.ParserUtils
import CangjieCompiler.AST.Query
import CangjieCompiler.AST.QueryParser
import CangjieCompiler.Foundations.OperatorGrouping
import CangjieCompiler.Parse.ParseExpr
import CangjieCompiler.Parse.OperatorPrecedence
import CangjieCompiler.Demangler.Demangler
import CangjieCompiler.Demangler.DemangledLists
import CangjieCompiler.Demangler.DemanglerTotality
import CangjieCompiler.CHIR.Optimization.UselessExprMeaning
import CangjieCompiler.CHIR.Interpreter.FoldingAgreement
import CangjieCompiler.Lex.Utf8RoundTrip
