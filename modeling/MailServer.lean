import MailServer.Lib.HashMap
import MailServer.Lib.BoolFilter
import MailServer.Lib.SortedMap
import MailServer.Imap.Message
import MailServer.Smtp.Queue
import MailServer.Utils.Leb128
import MailServer.Store.ChangeLog
import MailServer.Store.NetEffect
import MailServer.Store.LogQuery
import MailServer.Store.Query
import MailServer.Jmap.Changes
import MailServer.JmapProto.Json
import MailServer.Store.Fts
import MailServer.Common.Expr
import MailServer.Utils.ConfigParser
import MailServer.Common.ConfigManager
import MailServer.Lib.ShiftedErase
import MailServer.ImapProto.Expunge
import MailServer.Imap.Sync
import MailServer.Jmap.ImapUid
import MailServer.Imap.Op.Store
import MailServer.Directory.Manage
import MailServer.Lib.Reach
import MailServer.Lib.Fallible
import MailServer.Common.Roles
import MailServer.Utils.Base32Custom
import MailServer.ImapProto.Protocol
import MailServer.ImapProto.Parser
import MailServer.ImapProto.RoundTrip
import MailServer.Lib.Machine
import MailServer.JmapProto.References
import MailServer.Store.DocumentId
import MailServer.JmapProto.Id
import MailServer.JmapProto.Token
import MailServer.Utils.IpMask
import MailServer.JmapProto.Pointer
import MailServer.Lib.Iter
import MailServer.Utils.Base32Stream
import MailServer.JmapProto.Base32
import MailServer.JmapProto.State
import MailServer.JmapProto.Blob
import MailServer.ImapProto.Receiver
import MailServer.Lib.Glob
import MailServer.Utils.Glob
import MailServer.Store.Postings
import MailServer.Store.FtsIndex
import MailServer.Store.FtsQuery
import MailServer.Jmap.Thread
import MailServer.Lib.Forest
import MailServer.Lib.AssocList
import MailServer.Jmap.MailboxSet
import MailServer.Lib.Consume
import MailServer.Lib.Lex
import MailServer.Store.Pagination
import MailServer.Store.Sort
import MailServer.Store.Ranks
import MailServer.Jmap.MailboxQuery
import MailServer.Jmap.MailboxTree
