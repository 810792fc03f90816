import NosqlDbms.ExtentsUpdateRun
import NosqlDbms.HeadersRun
import NosqlDbms.StringLaw
import NosqlDbms.Conformance
import NosqlDbms.Catalogue
import NosqlDbms.TypesRun
import NosqlDbms.IterLaw
import NosqlDbms.QueryLaw
import NosqlDbms.JsonCmp
import NosqlDbms.Network
import NosqlDbms.ClientNode
import NosqlDbms.DocumentBody
import NosqlDbms.IntegerLiteral
import NosqlDbms.SectionsRun
import NosqlDbms.LinkedList
import NosqlDbms.DocumentsRun
import NosqlDbms.FailedCalls
import NosqlDbms.Registry
import NosqlDbms.TypeKept
import NosqlDbms.ObjectsRun
import NosqlDbms.ReadRun
import NosqlDbms.UserDelete
import NosqlDbms.DeleteRun
import NosqlDbms.DocTrees
import NosqlDbms.UserUpdate
import NosqlDbms.DocStoreRun
import NosqlDbms.Response
import NosqlDbms.Serving
import NosqlDbms.Pointers
import NosqlDbms.Isolation
import NosqlDbms.Sons
import NosqlDbms.SonsRun
