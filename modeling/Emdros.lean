import Emdros.Base.Run
import Emdros.Base.SpanList
import Emdros.Base.OrdMap
import Emdros.Base.Radix
import Emdros.Base.Linked
import Emdros.Base.Approx
import Emdros.Base.CharBuffer
import Emdros.Base.Partial
import Emdros.Base.Heap
import Emdros.Base.Doubly
import Emdros.Base.Lexer
import Emdros.Base.Lemon
import Emdros.Base.Grouping
import Emdros.Base.Brackets
import Emdros.Base.Effect
import Emdros.Monads.SetOfMonads
import Emdros.Monads.SetAlgebra
import Emdros.Monads.Store
import Emdros.Monads.Queries
import Emdros.Monads.FastSetOfMonads
import Emdros.Monads.FastAlgebra
import Emdros.Monads.FastStore
import Emdros.Monads.FastQueries
import Emdros.Monads.CompactString
import Emdros.EMdF.SkipList
import Emdros.EMdF.SkipListInv
import Emdros.EMdF.SkipListSearch
import Emdros.EMdF.Inst
import Emdros.EMdF.EnumConstCache
import Emdros.EMdF.EnumConstInv
import Emdros.EMdF.StringFunc
import Emdros.EMdF.JsonClasses
import Emdros.EMdF.JsonScanner
import Emdros.EMdF.JsonParser
import Emdros.EMdF.JsonReader
import Emdros.EMdF.JsonGrammar
import Emdros.EMdF.JsonRoundTrip
import Emdros.EMdF.Tables
import Emdros.EMdF.Connection
import Emdros.EMdF.ObjectTypes
import Emdros.EMdF.StringSets
import Emdros.EMdF.Sequences
import Emdros.EMdF.Features
import Emdros.EMdF.Objects
import Emdros.EMdF.WorkingBackend
import Emdros.EMdF.ObjectView
import Emdros.EMdF.ObjectChanges
import Emdros.EMdF.ObjectsInMonads
import Emdros.EMdF.Value
import Emdros.MQL.FFeatures
import Emdros.MQL.Sheaf
import Emdros.MQL.Blocks
import Emdros.MQL.Query
import Emdros.MQL.Retrieval
import Emdros.MQL.UsingRange
import Emdros.MQL.Retrievable
import Emdros.MQL.WatchedGroups
import Emdros.MQL.KleeneStar
import Emdros.MQL.StartMonads
import Emdros.MQL.PowerArithmetic
import Emdros.MQL.PowerBlocks
import Emdros.MQL.StrawOrder
import Emdros.MQL.StrawEnds
import Emdros.MQL.StarProgress
import Emdros.MQL.NotExist
import Emdros.MQL.Spans
import Emdros.MQL.MonadSetChain
import Emdros.MQL.Enumeration
import Emdros.MQL.CreateEnumeration
import Emdros.MQL.DeclaredTypes
import Emdros.MQL.Scanner
import Emdros.MQL.Literals
import Emdros.MQL.DataStatements
import Emdros.MQL.StatementView
import Emdros.Harvest.RenderObjects
import Emdros.Harvest.TagNesting
import Emdros.Harvest.Indexing
import Emdros.Harvest.IndexStatements
import Emdros.Harvest.IndexPostings
import Emdros.MQL.FeatureComparison
import Emdros.MQL.FlatSheaf
import Emdros.MQL.Prequery
import Emdros.MQL.FeatureDeclarations
import Emdros.Monads.StringForm
import Emdros.Monads.FillInsertRange
import Emdros.Base.Gaps
import Emdros.Monads.FillGaps
import Emdros.EMdF.JsonOutput
import Emdros.EMdF.PgCopy
import Emdros.Harvest.BookcaseHits
import Emdros.Harvest.CommonBookcases
import Emdros.Harvest.SearchStrings
import Emdros.Harvest.StyleSheets
import Emdros.Harvest.TemplateLang
import Emdros.Harvest.TemplateSimplify
import Emdros.Harvest.TemplateScanner
import Emdros.Harvest.TemplateCapture
import Emdros.Base.XmlText
import Emdros.EMdF.QDXml
import Emdros.EMdF.QDXmlReading
import Emdros.EMdF.QDXmlDocuments
import Emdros.EMdF.DecimalConversion
import Emdros.Base.Search
import Emdros.EMdF.SplitString
import Emdros.EMdF.ParserList
import Emdros.EMdF.EnumConstMaps
import Emdros.MQL.CBackslashes
import Emdros.EMdF.SlashU
import Emdros.EMdF.JsonCopy
import Emdros.Harvest.StringComparison
import Emdros.MQL.Weeder
import Emdros.EMdF.RandomLevel
import Emdros.EMdF.MiniDOMClone
import Emdros.EMdF.QDXmlInput
import Emdros.EMdF.MiniDOMDocHandler
import Emdros.EMdF.MiniDOMParser
import Emdros.Base.Singly
import Emdros.EMdF.LVlist
import Emdros.MQL.DataBounds
import Emdros.MQL.ObjectsHavingMonads
import Emdros.Base.Tries
import Emdros.MQL.SearchedStarts
import Emdros.MQL.LookingBack
import Emdros.MQL.StalledStars
import Emdros.MQL.BadEnds
import Emdros.MQL.EveryMonad
import Emdros.Base.Yields
import Emdros.MQL.Meaning
import Emdros.MQL.Answers
import Emdros.MQL.SelectQueries
import Emdros.MQL.InnermostFirst
import Emdros.MQL.RetrievedInsts
