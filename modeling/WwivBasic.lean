import WwivBasic.Foundations.OrderedMap
import WwivBasic.Foundations.Occurrences
import WwivBasic.Foundations.LastIndex
import WwivBasic.Foundations.RunLogic
import WwivBasic.Foundations.Consuming
import WwivBasic.Core.Strings
import WwivBasic.Core.ColorCodes
import WwivBasic.Core.TrimColors
import WwivBasic.Core.StringUtils
import WwivBasic.Foundations.Overwriting
import WwivBasic.Core.DataFile
import WwivBasic.Syntax
import WwivBasic.Value
import WwivBasic.Arithmetic
import WwivBasic.ResultTypes
import WwivBasic.Foundations.CoercedOrder
import WwivBasic.Comparisons
import WwivBasic.Context
import WwivBasic.Machine
import WwivBasic.Executor
import WwivBasic.Stdlib
import WwivBasic.FunctionDef
import WwivBasic.VisitorRules
import WwivBasic.Literals
import WwivBasic.Balance
import WwivBasic.Returns
import WwivBasic.Tags
import WwivBasic.Alike
import WwivBasic.DefinitionOrder
import WwivBasic.Foundations.FirstMention
import WwivBasic.Definitions
import WwivBasic.Foundations.InfixTree
import WwivBasic.Foundations.Replay
import WwivBasic.Frame
import WwivBasic.Params
import WwivBasic.Recursion
import WwivBasic.Settled
import WwivBasic.Foundations.Shadowing
import WwivBasic.Variables
import WwivBasic.Precedence
import WwivBasic.Core.Parser.Lexer
import WwivBasic.Core.Parser.Scanning
import WwivBasic.Core.Parser.Ast
import WwivBasic.Core.Parser.Pointers
import WwivBasic.Core.Parser.Chains
import WwivBasic.Foundations.Progression
import WwivBasic.Loops
import WwivBasic.Branches
import WwivBasic.StdlibCalls
import WwivBasic.Slices
import WwivBasic.Foundations.LongestPrefix
import WwivBasic.Packages
import WwivBasic.NativeCalls
import WwivBasic.ModuleScopes
import WwivBasic.Parens
import WwivBasic.Core.Parser.TokenMachine
import WwivBasic.Core.Parser.Acceptance
import WwivBasic.Core.Parser.InOrder
import WwivBasic.Core.Parser.Complete
import WwivBasic.Core.Parser.Conditions
import WwivBasic.Core.TextFile
import WwivBasic.Core.IniFile
import WwivBasic.Core.IniComments
import WwivBasic.Core.IniMultiline
import WwivBasic.Foundations.ShortestPaths
import WwivBasic.Core.Graphs
import WwivBasic.Core.GraphNumbering
import WwivBasic.Foundations.MaximalMunch
import WwivBasic.BasicLexer
import WwivBasic.Comments
import WwivBasic.SourceUnits
import WwivBasic.Foundations.DelimitedLines
import WwivBasic.Core.ReadVector
import WwivBasic.Core.TextLines
import WwivBasic.Core.LastLines
import WwivBasic.Core.Uuid
import WwivBasic.Core.CommandLine
import WwivBasic.Core.DateTime
import WwivBasic.Core.TimeSpan
import WwivBasic.Core.Cp437
import WwivBasic.Core.Net
import WwivBasic.Core.Parser.Cursor
import WwivBasic.Core.Crc32
import WwivBasic.Core.Md5Stream
import WwivBasic.Termination
import WwivBasic.Core.RecordStore
import WwivBasic.Core.SocketConnection
import WwivBasic.Core.HttpServer
import WwivBasic.Core.SemaphoreFile
import WwivBasic.Core.TextWriter
import WwivBasic.Core.CommandTree
import WwivBasic.Core.CommandDefaults
