import RepoManager.Confinement
import RepoManager.Authorization
import RepoManager.Repository.Concurrent
import RepoManager.Server.Shutdown
import RepoManager.Store
import RepoManager.Library.UrlPath
import RepoManager.Repository.AuthLdap
import RepoManager.Client.Actions
import RepoManager.Client.FileLinks
import RepoManager.Client.LastLoad
import RepoManager.Client.Screen
import RepoManager.Config.EffectiveAuth
import RepoManager.Config.Load
import RepoManager.Service.FailedUpload
import RepoManager.Client.Loading
import RepoManager.Client.GridSelection
import RepoManager.Client.Mirror
import RepoManager.Client.SessionCookie
import RepoManager.Client.TreeSelection
import RepoManager.Client.Details
import RepoManager.Client.Toasts
import RepoManager.SignInAgain
import RepoManager.Handler.BraceIndices
import RepoManager.Handler.StripPrefix
import RepoManager.Library.Json
import RepoManager.Client.ErrorText
import RepoManager.Library.Shell
import RepoManager.Library.ShellWords
import RepoManager.Service.Reindex
import RepoManager.Api.Messages
import RepoManager.Api.Listing
import RepoManager.Api.Package
import RepoManager.Api.Replies
import RepoManager.Api.RoundTrip
import RepoManager.Client.FolderTree
import RepoManager.Library.TreeRegion
import RepoManager.Library.Unwinding
import RepoManager.Service.Region
import RepoManager.Config.View
import RepoManager.Handler.Effects
import RepoManager.Isolation
import RepoManager.Provenance
import RepoManager.Library.TreeGrowth
import RepoManager.Growth
import RepoManager.Poisoned
import RepoManager.Handler.Cookies
import RepoManager.Client.UserSession
import RepoManager.Handler.RoutingTable
import RepoManager.Client.Requests
import RepoManager.Panics
